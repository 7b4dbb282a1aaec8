/-
Module: Khor.Sync.StoreApply
Purpose: The checked import: a body is tried on a candidate made from the live document's snapshot, the
  pile's fence is checked, the pen is retired if this writer's own counter could rise, and only then is
  the body imported, flushed and checked again. Other processes may replace the epoch file or the lock
  file before each check of the fence.
Trusted boundary: a lock that was granted is held until the process lets it go
Main exports: ApplySpec, ApplyError, ApplyIo, applyChecked, apply_all_or_proved
-/
import Khor.Sync.Durability

namespace Khor.Sync.StoreApply

open Khor.Sync.BlockStore

/-- The receiver's advertised durable base and the sender's fixed target. -/
structure ApplySpec where
  expectedEpoch : Nat
  baseVv : SyncVersion
  targetVv : SyncVersion

/-- A successful checked live import and flush. -/
structure FlushedImport where
  version : SyncVersion
  epoch : Nat
  report : MergeReport
  block : Option BlockName
  retiredPen : Option Writer

inductive ApplyError where
  | wrongEpoch (expected loaded : Nat)
  | staleBase
  | invalidVersion
  | seedFailure (why : String)
  | invalidBody (why : String)
  | pendingImport
  | missingTarget
  | missingWriterLease
  | needsReload
  | fenceUnavailable (why : String)
  | fenceLost
  | epochIo (why : String)
  | invalidEpoch
  | staleEpoch (expected disk : Nat)
  | commitFailed (why : String)
deriving Repr

/-- `Display` of an error is its `Debug`. -/
def ApplyError.text (e : ApplyError) : String := toString (repr e)

/-- What other processes have made of the pile's control files, where they have changed them. -/
structure Control where
  epochFile : Option EpochFile := none
  pile : Option (Option Nat) := none

/-- One check of the fence: what has changed since, and the error of reading the identities. -/
structure Probe where
  control : Control := {}
  identity : Option String := none

/-- What the outside answers during one checked import. -/
structure ApplyIo where
  candidate : Writer → Except String LoroDoc := fun peer => .ok (.open peer)
  snapshot : Option String := none
  makeDir : Option String := none
  openFence : Option String := none
  lockFile : Nat := 0
  lock : Option String := none
  locked : Probe := {}
  listing : Option String := none
  writeEpoch : Option String := none
  fenced : Probe := {}
  retire : Io := {}
  tookIn : Io := {}
  imported : Probe := {}
  flush : Io := {}
  flushed : Probe := {}

/-- `covers`. -/
def covers (version before : SyncVersion) (spec : ApplySpec) : Prop :=
  version.Includes before ∧ version.Includes spec.baseVv ∧ version.Includes spec.targetVv

instance (version before : SyncVersion) (spec : ApplySpec) : Decidable (covers version before spec) :=
  inferInstanceAs (Decidable (_ ∧ _))

/-! ### The fence -/

/-- `strict_epoch`: what the epoch file says, `none` with no file. -/
def strictEpoch (dir : Dir) : Except ApplyError (Option Nat) :=
  match dir.epochFile with
  | .absent => .ok none
  | .unreadable why => .error (.epochIo why)
  | .notUtf8 => .error .invalidEpoch
  | .text content =>
      match parseBounded (2 ^ 32) (trim content) with
      | some epoch => .ok (some epoch)
      | none => .error .invalidEpoch

/-- `check_epoch`. -/
def checkEpoch (disk : Option Nat) (expected : Nat) (stamp : Bool) : Except ApplyError Unit :=
  match disk with
  | some disk => if disk = expected then .ok () else .error (.staleEpoch expected disk)
  | none => if expected = 0 ∧ stamp = false then .ok () else .error .needsReload

/-- `check_identity`: the lock file held is the one the directory has now. -/
def checkIdentity (probe : Probe) (held : Nat) (dir : Dir) : Except ApplyError Unit :=
  match probe.identity with
  | some why => .error (.fenceUnavailable why)
  | none =>
      match dir.pile with
      | none => .error (.fenceUnavailable "No such file or directory")
      | some current => if held = current then .ok () else .error .fenceLost

/-- The directory after other processes have touched its control files. -/
def outside (control : Control) (l : Loaded) : Loaded :=
  { l with
    store := { l.store with
      dir := { l.store.dir with
        epochFile := control.epochFile.getD l.store.dir.epochFile
        pile := control.pile.getD l.store.dir.pile } } }

/-- `check_apply_fence`. -/
def checkApplyFence (probe : Probe) (expected : Nat) (l : Loaded) : Except ApplyError Unit × Loaded :=
  match l.pile with
  | none => (.error (.fenceUnavailable "no pile lock"), l)
  | some held =>
      let l := outside probe.control l
      match checkIdentity probe held l.store.dir with
      | .error e => (.error e, l)
      | .ok () =>
          match strictEpoch l.store.dir with
          | .error e => (.error e, l)
          | .ok disk => (checkEpoch disk expected l.store.stamp, l)

/-- The epoch part of taking the lock: alone, on a pile that must still be empty, and with the epoch
file written; or shared. -/
def settleEpoch (io : ApplyIo) (expected : Nat) (disk : Option Nat) (l : Loaded) :
    Except ApplyError Unit × Loaded :=
  if l.store.stamp then
    match io.listing with
    | some why => (.error (.fenceUnavailable why), l)
    | none =>
        if l.store.dir.blocks.entries ≠ [] then (.error .needsReload, l)
        else
          match disk with
          | some disk =>
              if disk ≠ expected then (.error (.staleEpoch expected disk), l)
              else (.ok (), { l with store := { l.store with stamp := false } })
          | none =>
              match io.writeEpoch with
              | some why => (.error (.commitFailed why), l)
              | none =>
                  (.ok (), { l with
                      store := { l.store with
                        dir := { l.store.dir with epochFile := .text (epochText expected) }
                        stamp := false } })
  else (checkEpoch disk expected false, l)

/-- `ensure_apply_fence`: check the lock that is held, or take one. A held lock is never upgraded. -/
def ensureApplyFence (io : ApplyIo) (expected : Nat) (l : Loaded) :
    Except ApplyError Unit × Loaded :=
  match l.pile with
  | some _ => checkApplyFence io.fenced expected l
  | none =>
      match io.makeDir with
      | some why => (.error (.fenceUnavailable why), l)
      | none =>
          let l := { l with store := { l.store with dir := { l.store.dir with isDir := true } } }
          match io.openFence with
          | some why => (.error (.fenceUnavailable why), l)
          | none =>
              let file := l.store.dir.pile.getD io.lockFile
              let l :=
                { l with store := { l.store with dir := { l.store.dir with pile := some file } } }
              match io.lock with
              | some why => (.error (.fenceUnavailable why), l)
              | none =>
                  let l := outside io.locked.control l
                  match checkIdentity io.locked file l.store.dir with
                  | .error e => (.error e, l)
                  | .ok () =>
                      match strictEpoch l.store.dir with
                      | .error e => (.error e, l)
                      | .ok disk =>
                          match settleEpoch io expected disk l with
                          | (.error e, l) => (.error e, l)
                          | (.ok (), l) =>
                              checkApplyFence io.fenced expected { l with pile := some file }

/-! ### The pen -/

/-- `retire_pen_checked`: give the pen file a fresh name. -/
def retirePenChecked (io : Io) (s : BlockStore) : Except String (Option Writer) × BlockStore :=
  match s.pen with
  | none => (.ok none, s)
  | some (k, name) =>
      match io.writePen with
      | some why => (.error why, s)
      | none =>
          (.ok (some name), { s with
              dir := { s.dir with pens := s.dir.pens.insert k (some io.freshName) }
              pen := none
              retired := some name })

/-- The end of the pending operations known of a writer. -/
def pendingOf (s : BlockStore) (name : Writer) : Int := ((s.pending.lookup name).getD 0 : Nat)

/-- `retire_before_import`. -/
def retireBeforeImport (io : Io) (before projected : SyncVersion) (s : BlockStore) :
    Except String (Option Writer) × BlockStore :=
  match s.pen with
  | none => (.ok none, s)
  | some (_, name) =>
      if projected.get name ≤ before.get name ∧ pendingOf s name ≤ before.get name then (.ok none, s)
      else retirePenChecked io s

/-- `took_in_checked`. -/
def tookInChecked (io : Io) (before actual : SyncVersion) (s : BlockStore) :
    Except String (Option Writer) × BlockStore :=
  match s.pen with
  | none => (.ok none, s)
  | some (_, name) =>
      if actual.get name ≤ before.get name then (.ok none, s) else retirePenChecked io s

/-! ### The import -/

/-- The candidate: a new document seeded with the live snapshot, with the body imported. Its version
is what the live one is expected to become. -/
def projectedVersion (io : ApplyIo) (l : Loaded) (spec : ApplySpec) (bytes : Bytes) :
    Except ApplyError SyncVersion :=
  match io.candidate l.doc.peerId with
  | .error why => .error (.seedFailure why)
  | .ok candidate =>
      if ¬ candidate.version.Same ∅ then
        .error (.seedFailure "candidate constructor minted operations")
      else
        match io.snapshot with
        | some why => .error (.seedFailure why)
        | none =>
            match candidate.mergeReport l.doc.snapshot with
            | .error why => .error (.seedFailure why)
            | .ok (seed, candidate) =>
                if seed.pending ≠ [] ∨ ¬ candidate.version.Same l.doc.version then
                  .error (.seedFailure "snapshot does not reproduce applied version")
                else
                  match candidate.mergeReport bytes with
                  | .error why => .error (.invalidBody why)
                  | .ok (report, candidate) =>
                      if report.pending ≠ [] then .error .pendingImport
                      else if ¬ covers candidate.version l.doc.version spec then
                        .error .missingTarget
                      else .ok candidate.version

/-- Everything checked before anything is touched. -/
def validate (io : ApplyIo) (l : Loaded) (spec : ApplySpec) (bytes : Bytes) :
    Except ApplyError SyncVersion :=
  if spec.expectedEpoch ≠ l.store.epoch then
    .error (.wrongEpoch spec.expectedEpoch l.store.epoch)
  else if (spec.baseVv.entries ++ spec.targetVv.entries).any (fun e => decide (e.2 < 0)) then
    .error .invalidVersion
  else if ¬ l.doc.version.Includes spec.baseVv ∨ ¬ l.store.onDisk.Includes spec.baseVv then
    .error .staleBase
  else projectedVersion io l spec bytes

/-- What follows the import: the pen once more, the fence, the flush, the fence again. -/
def settle (io : ApplyIo) (spec : ApplySpec) (before : SyncVersion) (report : MergeReport)
    (retired : Option Writer) (l : Loaded) : Except ApplyError FlushedImport × Loaded :=
  let actual := l.doc.version
  match tookInChecked io.tookIn before actual l.store with
  | (.error why, store) => (.error (.commitFailed why), { l with store := store })
  | (.ok retiredActual, store) =>
      let l := { l with store := store }
      if ¬ covers actual before spec then
        (.error (.commitFailed "live import did not cover required versions"), l)
      else
        match checkApplyFence io.imported spec.expectedEpoch l with
        | (.error e, l) => (.error (.commitFailed e.text), l)
        | (.ok (), l) =>
            match l.store.flush io.flush l.doc with
            | (.error why, store) => (.error (.commitFailed why), { l with store := store })
            | (.ok block, store) =>
                match checkApplyFence io.flushed spec.expectedEpoch { l with store := store } with
                | (.error e, l) => (.error (.commitFailed e.text), l)
                | (.ok (), l) =>
                    if ¬ l.store.onDisk.Includes actual ∨ ¬ l.store.onDisk.Includes spec.targetVv then
                      (.error (.commitFailed "flush did not cover the applied version"), l)
                    else
                      (.ok
                        { version := actual
                          epoch := l.store.epoch
                          report := report
                          block := block
                          retiredPen := retired.or retiredActual }, l)

/-- The commit: retire the pen if its writer could advance, and import into the live document. -/
def commit (io : ApplyIo) (spec : ApplySpec) (bytes : Bytes) (projected : SyncVersion) (l : Loaded) :
    Except ApplyError FlushedImport × Loaded :=
  let before := l.doc.version
  match retireBeforeImport io.retire before projected l.store with
  | (.error why, store) => (.error (.commitFailed why), { l with store := store })
  | (.ok retired, store) =>
      let l := { l with store := store }
      match l.doc.mergeReport bytes with
      | .error why => (.error (.commitFailed why), l)
      | .ok (report, doc) =>
          settle io spec before report retired
            { l with doc := doc, store := l.store.recordImport report }

/-- `apply_checked`. -/
def applyChecked (io : ApplyIo) (l : Loaded) (spec : ApplySpec) (bytes : Bytes) :
    Except ApplyError FlushedImport × Loaded :=
  match validate io l spec bytes with
  | .error e => (.error e, l)
  | .ok projected =>
      match ensureApplyFence io spec.expectedEpoch l with
      | (.error e, l) => (.error e, l)
      | (.ok (), l) =>
          let own := l.doc.peerId
          let ownBefore := l.doc.version.get own
          if l.store.pen = none ∧ l.store.retired ≠ some own ∧
              (ownBefore < projected.get own ∨ ownBefore < pendingOf l.store own) then
            (.error .missingWriterLease, l)
          else commit io spec bytes projected l

/-! ### What each step leaves alone -/

/-- Everything but the fence is as it was. -/
structure SameLive (l l' : Loaded) : Prop where
  doc : l'.doc = l.doc
  onDisk : l'.store.onDisk = l.store.onDisk
  blocks : l'.store.dir.blocks = l.store.dir.blocks
  pens : l'.store.dir.pens = l.store.dir.pens
  pen : l'.store.pen = l.store.pen
  retired : l'.store.retired = l.store.retired
  pending : l'.store.pending = l.store.pending
  epoch : l'.store.epoch = l.store.epoch

theorem SameLive.refl (l : Loaded) : SameLive l l := ⟨rfl, rfl, rfl, rfl, rfl, rfl, rfl, rfl⟩

theorem SameLive.trans {l l' l'' : Loaded} (h : SameLive l l') (h' : SameLive l' l'') : SameLive l l'' :=
  ⟨h'.doc.trans h.doc, h'.onDisk.trans h.onDisk, h'.blocks.trans h.blocks, h'.pens.trans h.pens,
    h'.pen.trans h.pen, h'.retired.trans h.retired, h'.pending.trans h.pending, h'.epoch.trans h.epoch⟩

theorem outside_live (control : Control) (l : Loaded) : SameLive l (outside control l) :=
  ⟨rfl, rfl, rfl, rfl, rfl, rfl, rfl, rfl⟩

theorem checkApplyFence_live (probe : Probe) (expected : Nat) (l : Loaded) :
    SameLive l (checkApplyFence probe expected l).2 := by
  unfold checkApplyFence
  split
  · exact .refl l
  · dsimp only
    split
    · exact outside_live _ l
    · split <;> exact outside_live _ l

variable {io : ApplyIo} {l l' : Loaded} {s s' : BlockStore} {before projected : SyncVersion} {doc : LoroDoc}
  {spec : ApplySpec} {r : Except ApplyError FlushedImport} {bytes : Bytes}

theorem settleEpoch_live {expected : Nat} {disk : Option Nat} {r : Except ApplyError Unit}
    (h : settleEpoch io expected disk l = (r, l')) : SameLive l l' := by
  unfold settleEpoch at h
  repeat' split at h
  all_goals
    cases h
    exact ⟨rfl, rfl, rfl, rfl, rfl, rfl, rfl, rfl⟩

/-- Checking or taking the fence touches control files only. -/
theorem ensureApplyFence_live (io : ApplyIo) (expected : Nat) (l : Loaded) :
    SameLive l (ensureApplyFence io expected l).2 := by
  have control : ∀ {l' : Loaded}, l'.doc = l.doc → l'.store.onDisk = l.store.onDisk →
      l'.store.dir.blocks = l.store.dir.blocks → l'.store.dir.pens = l.store.dir.pens →
      l'.store.pen = l.store.pen → l'.store.retired = l.store.retired →
      l'.store.pending = l.store.pending → l'.store.epoch = l.store.epoch → SameLive l l' :=
    fun h₁ h₂ h₃ h₄ h₅ h₆ h₇ h₈ => ⟨h₁, h₂, h₃, h₄, h₅, h₆, h₇, h₈⟩
  unfold ensureApplyFence
  split
  · exact checkApplyFence_live _ _ l
  · split
    · exact .refl l
    · dsimp only
      split
      · exact control rfl rfl rfl rfl rfl rfl rfl rfl
      · split
        · exact control rfl rfl rfl rfl rfl rfl rfl rfl
        · split
          · exact control rfl rfl rfl rfl rfl rfl rfl rfl
          · split
            · exact control rfl rfl rfl rfl rfl rfl rfl rfl
            · split
              · rename_i hsettle
                have settled := settleEpoch_live hsettle
                exact control settled.doc settled.onDisk settled.blocks settled.pens settled.pen
                  settled.retired settled.pending settled.epoch
              · rename_i hsettle
                have settled := settleEpoch_live hsettle
                refine SameLive.trans ?_ (checkApplyFence_live _ _ _)
                exact control settled.doc settled.onDisk settled.blocks settled.pens settled.pen
                  settled.retired settled.pending settled.epoch

/-- A fence that was found whole: the directory's epoch is the expected one. -/
theorem readEpoch_of_fence {probe : Probe} {expected : Nat} (h : checkApplyFence probe expected l = (.ok (), l')) :
    readEpoch l'.store.dir = expected := by
  unfold checkApplyFence at h
  split at h
  · cases h
  · dsimp only at h
    split at h
    · cases h
    · split at h
      · cases h
      · rename_i disk hstrict
        obtain ⟨hcheck, rfl⟩ := Prod.mk.inj h
        unfold strictEpoch at hstrict
        unfold readEpoch
        split at hstrict
        · rename_i habsent
          cases hstrict
          unfold checkEpoch at hcheck
          dsimp only at hcheck
          split at hcheck
          · rename_i zero
            rw [habsent]
            exact zero.1.symm
          · cases hcheck
        · cases hstrict
        · cases hstrict
        · rename_i content htext
          split at hstrict
          · rename_i epoch hparse
            cases hstrict
            unfold checkEpoch at hcheck
            dsimp only at hcheck
            split at hcheck
            · rename_i same
              rw [htext]
              simp only [hparse, Option.getD_some, same]
            · cases hcheck
          · cases hstrict

/-! ### The pen and the flush -/

/-- A step that touches the pen at most: nothing happens, or its file is given a fresh name and the
copy gives it up. -/
structure PenStep (fresh : Writer) (s s' : BlockStore) : Prop where
  onDisk : s'.onDisk = s.onDisk
  blocks : s'.dir.blocks = s.dir.blocks
  pending : s'.pending = s.pending
  epoch : s'.epoch = s.epoch
  moves : (s'.pen = s.pen ∧ s'.dir.pens = s.dir.pens) ∨
    ∃ k name, s.pen = some (k, name) ∧ s'.pen = none ∧
      s'.dir.pens = s.dir.pens.insert k (some fresh)

theorem PenStep.refl (fresh : Writer) (s : BlockStore) : PenStep fresh s s :=
  ⟨rfl, rfl, rfl, rfl, Or.inl ⟨rfl, rfl⟩⟩

/-- Retiring a pen fails and changes nothing, or succeeds and leaves no pen. -/
theorem retirePenChecked_cases {io : Io} {r : Except String (Option Writer)} (h : retirePenChecked io s = (r, s')) :
    PenStep io.freshName s s' ∧ ((∃ why, r = .error why ∧ s' = s) ∨ s'.pen = none) := by
  unfold retirePenChecked at h
  split at h
  · rename_i none
    cases h
    exact ⟨.refl _ s, Or.inr none⟩
  · rename_i k name held
    split at h
    · cases h
      exact ⟨.refl _ s, Or.inl ⟨_, rfl, rfl⟩⟩
    · cases h
      exact ⟨⟨rfl, rfl, rfl, rfl, Or.inr ⟨k, name, held, rfl, rfl⟩⟩, Or.inr rfl⟩

/-- Before the import: an error with nothing changed, or no pen left if its writer could advance. -/
theorem retireBeforeImport_cases {io : Io} {r : Except String (Option Writer)}
    (h : retireBeforeImport io before projected s = (r, s')) :
    PenStep io.freshName s s' ∧ ((∃ why, r = .error why ∧ s' = s) ∨ ∀ k name, s'.pen = some (k, name) →
        projected.get name ≤ before.get name ∧ pendingOf s name ≤ before.get name) := by
  unfold retireBeforeImport at h
  split at h
  · rename_i none
    cases h
    exact ⟨.refl _ s, Or.inr fun k name held => by rw [none] at held; cases held⟩
  · rename_i k name held
    split at h
    · rename_i still
      cases h
      refine ⟨.refl _ s, Or.inr fun k' name' held' => ?_⟩
      rw [held] at held'
      cases held'
      exact still
    · obtain ⟨step, outcome⟩ := retirePenChecked_cases h
      refine ⟨step, outcome.imp_right fun gone k' name' held' => ?_⟩
      rw [gone] at held'
      cases held'

theorem tookInChecked_step {io : Io} {actual : SyncVersion} {r : Except String (Option Writer)}
    (h : tookInChecked io before actual s = (r, s')) : PenStep io.freshName s s' := by
  unfold tookInChecked at h
  split at h
  · cases h
    exact .refl _ s
  · split at h
    · cases h
      exact .refl _ s
    · exact (retirePenChecked_cases h).1

theorem tookIn_step (io : Io) (before : SyncVersion) (doc : LoroDoc) (s : BlockStore) :
    PenStep io.freshName s (s.tookIn io before doc).2 := by
  unfold tookIn
  split
  · exact .refl _ s
  · rename_i k name held
    split
    · exact .refl _ s
    · split
      · exact .refl _ s
      · exact ⟨rfl, rfl, rfl, rfl, Or.inr ⟨k, name, held, rfl, rfl⟩⟩

/-- A step that leaves the pen alone and counts at most what the document holds. -/
structure Stays (doc : LoroDoc) (s s' : BlockStore) : Prop where
  onDisk : s'.onDisk = s.onDisk ∨ s'.onDisk = doc.version
  pending : s'.pending = s.pending
  pens : s'.dir.pens = s.dir.pens
  pen : s'.pen = s.pen
  epoch : s'.epoch = s.epoch

theorem Stays.of_books (h : SameBooks s s') : Stays doc s s' :=
  ⟨Or.inl h.onDisk, h.pending, h.pens, h.pen, h.epoch⟩

theorem Stays.of_live (h : SameLive l l') : Stays doc l.store l'.store :=
  ⟨Or.inl h.onDisk, h.pending, h.pens, h.pen, h.epoch⟩

theorem Stays.trans {doc : LoroDoc} {s s' s'' : BlockStore} (h : Stays doc s s')
    (h' : Stays doc s' s'') : Stays doc s s'' := by
  refine ⟨?_, h'.pending.trans h.pending, h'.pens.trans h.pens, h'.pen.trans h.pen, h'.epoch.trans h.epoch⟩
  rcases h'.onDisk with same | whole
  · rw [same]
    exact h.onDisk
  · exact Or.inr whole

theorem flush_stays {io : Io} {r : Except String (Option BlockName)} (h : s.flush io doc = (r, s')) :
    Stays doc s s' := by
  rcases flush_cases h with ⟨_, _, rfl⟩ | ⟨_, _, books⟩ | ⟨seq, s₁, _, ⟨s₂, books, rfl⟩, outcome⟩
  · exact .of_books (.refl _)
  · exact .of_books books
  · rcases outcome with ⟨_, _, rfl⟩ | ⟨_, rfl⟩
    · exact ⟨Or.inl books.onDisk, books.pending, books.pens, books.pen, books.epoch⟩
    · exact ⟨Or.inr rfl, books.pending, books.pens, books.pen, books.epoch⟩

/-- What lay above `on_disk` is in a block file after a flush that succeeds. -/
theorem has_of_flush_ok {io : Io} {name : Option BlockName} (h : s.flush io doc = (.ok name, s')) {o : SyncOp}
    (ho : o ∈ doc.applied) (above : s.onDisk.upTo o.writer ≤ o.counter) : s'.dir.Has o := by
  rcases flush_cases h with ⟨same, _, _⟩ | ⟨_, hr, _⟩ |
    ⟨seq, s₁, _, ⟨s₂, books, rfl⟩, ⟨_, hr, _⟩ | ⟨_, rfl⟩⟩
  · have held := doc.causal.held ho
    rw [Held, ← LoroDoc.upTo_version, VersionVector.same_iff.mp same] at held
    exact absurd held (Nat.not_lt.mpr above)
  · cases hr
  · cases hr
  · exact ⟨_, _, AList.lookup_insert _, mem_since.mpr ⟨ho, above⟩⟩

/-! ### What the whole call can do -/

/-- Everything that can follow the import. -/
theorem settle_cases {report : MergeReport} {retired : Option Writer}
    (h : settle io spec before report retired l = (r, l')) :
    l'.doc = l.doc ∧ ∃ s₁, PenStep io.tookIn.freshName l.store s₁ ∧ Stays l.doc s₁ l'.store ∧
      ((∃ why, r = .error (.commitFailed why)) ∨
        ∃ (s₂ s₃ : BlockStore) (name : Option BlockName) (result : FlushedImport),
          r = .ok result ∧ result.version = l.doc.version ∧
          result.epoch = l'.store.epoch ∧ covers l.doc.version before spec ∧
          s₂.onDisk = l.store.onDisk ∧ s₂.flush io.flush l.doc = (.ok name, s₃) ∧
          l'.store.dir.blocks = s₃.dir.blocks ∧ readEpoch l'.store.dir = spec.expectedEpoch ∧
          l'.store.onDisk.Includes l.doc.version ∧ l'.store.onDisk.Includes spec.targetVv) := by
  unfold settle at h
  dsimp only at h
  split at h
  · rename_i htook
    cases h
    exact ⟨rfl, _, tookInChecked_step htook, .of_books (.refl _), Or.inl ⟨_, rfl⟩⟩
  · rename_i retiredActual s₁ htook
    have penned := tookInChecked_step htook
    split at h
    · cases h
      exact ⟨rfl, s₁, penned, .of_books (.refl _), Or.inl ⟨_, rfl⟩⟩
    · rename_i covered
      have fenced := checkApplyFence_live io.imported spec.expectedEpoch { l with store := s₁ }
      split at h
      · rename_i hfence
        cases h
        rw [hfence] at fenced
        exact ⟨fenced.doc, s₁, penned, .of_live fenced, Or.inl ⟨_, rfl⟩⟩
      · rename_i l₂ hfence
        rw [hfence] at fenced
        have doc₂ : l₂.doc = l.doc := fenced.doc
        split at h
        · rename_i hflush
          cases h
          rw [doc₂] at hflush
          exact ⟨doc₂, s₁, penned, Stays.trans (.of_live fenced) (flush_stays hflush), Or.inl ⟨_, rfl⟩⟩
        · rename_i name s₃ hflush
          rw [doc₂] at hflush
          have flushed : Stays l.doc s₁ s₃ := Stays.trans (.of_live fenced) (flush_stays hflush)
          have last := checkApplyFence_live io.flushed spec.expectedEpoch { l₂ with store := s₃ }
          split at h
          · rename_i hlast
            cases h
            rw [hlast] at last
            exact ⟨last.doc.trans doc₂, s₁, penned, Stays.trans flushed (.of_live last), Or.inl ⟨_, rfl⟩⟩
          · rename_i l₄ hlast
            rw [hlast] at last
            have stays : Stays l.doc s₁ l₄.store := Stays.trans flushed (.of_live last)
            split at h
            · cases h
              exact ⟨last.doc.trans doc₂, s₁, penned, stays, Or.inl ⟨_, rfl⟩⟩
            · rename_i complete
              cases h
              rw [not_or, not_not, not_not] at complete
              refine ⟨last.doc.trans doc₂, s₁, penned, stays, Or.inr ⟨l₂.store, s₃, name, _, rfl, rfl,
                rfl, not_not.mp covered, fenced.onDisk.trans penned.onDisk, hflush, last.blocks,
                readEpoch_of_fence hlast, complete.1, complete.2⟩⟩

/-- Everything the commit can do: fail before the import, the pen retired or not; or import. -/
theorem commit_cases (h : commit io spec bytes projected l = (r, l')) : ∃ s₁, PenStep io.retire.freshName l.store s₁ ∧
      (((∃ why, r = .error (.commitFailed why)) ∧ l' = { l with store := s₁ }) ∨
        ∃ ops retired, bytes = some ops ∧
          (∀ k name, s₁.pen = some (k, name) → projected.get name ≤ l.doc.version.get name ∧
            pendingOf l.store name ≤ l.doc.version.get name) ∧
          settle io spec l.doc.version (l.doc.reportOf ops) retired { l with
              doc := l.doc.takeOps ops
              store := s₁.recordImport (l.doc.reportOf ops) } = (r, l')) := by
  unfold commit at h
  dsimp only at h
  split at h
  · rename_i hretire
    cases h
    exact ⟨_, (retireBeforeImport_cases hretire).1, Or.inl ⟨⟨_, rfl⟩, rfl⟩⟩
  · rename_i retired s₁ hretire
    obtain ⟨penned, outcome⟩ := retireBeforeImport_cases hretire
    refine ⟨s₁, penned, ?_⟩
    split at h
    · cases h
      exact Or.inl ⟨⟨_, rfl⟩, rfl⟩
    · rename_i report doc hmerge
      obtain ⟨ops, hops, rfl, rfl⟩ := LoroDoc.mergeReport_cases hmerge
      refine Or.inr ⟨ops, retired, hops, ?_, h⟩
      rcases outcome with ⟨_, hr, _⟩ | foreseen
      · cases hr
      · exact foreseen

/-- Everything the call can do: refuse with only the fence touched, or commit a body that was projected,
holding a pen or a name that is retired if the writer's counter could rise. -/
theorem apply_cases (h : applyChecked io l spec bytes = (r, l')) : ((∃ e, r = .error e) ∧ SameLive l l') ∨
      ∃ projected l₁, validate io l spec bytes = .ok projected ∧ SameLive l l₁ ∧
        ¬ (l₁.store.pen = none ∧ l₁.store.retired ≠ some l₁.doc.peerId ∧
          (l₁.doc.version.get l₁.doc.peerId < projected.get l₁.doc.peerId ∨
            l₁.doc.version.get l₁.doc.peerId < pendingOf l₁.store l₁.doc.peerId)) ∧
        commit io spec bytes projected l₁ = (r, l') := by
  unfold applyChecked at h
  split at h
  · cases h
    exact Or.inl ⟨⟨_, rfl⟩, .refl l⟩
  · rename_i projected hvalid
    have fenced := ensureApplyFence_live io spec.expectedEpoch l
    split at h
    · rename_i hfence
      cases h
      rw [hfence] at fenced
      exact Or.inl ⟨⟨_, rfl⟩, fenced⟩
    · rename_i l₁ hfence
      rw [hfence] at fenced
      dsimp only at h
      split at h
      · cases h
        exact Or.inl ⟨⟨_, rfl⟩, fenced⟩
      · rename_i leased
        exact Or.inr ⟨projected, l₁, hvalid, fenced, leased, h⟩

/-! ### Registered copies -/

/-- What holds of every copy whose merges are all registered: `on_disk` lies within the live version,
what is parked is known, and of the directory's pens only the one this copy holds names its writer. -/
structure Registered (l : Loaded) : Prop where
  below : ∀ w, l.store.onDisk.upTo w ≤ reach l.doc.applied w
  known : PendingKnown l.store l.doc
  own : ∀ k name, l.store.pen = some (k, name) → name = l.doc.peer
  named : ∀ k, l.store.dir.pens.lookup k = some (some l.doc.peer) →
    l.store.pen = some (k, l.doc.peer)

theorem Registered.stays (h : Registered l) (stays : Stays l.doc l.store s) : Registered { l with store := s } := by
  refine ⟨fun w => ?_, fun o ho => ?_, fun k name held => ?_, fun k held => ?_⟩
  · rcases stays.onDisk with same | whole
    · rw [same]
      exact h.below w
    · rw [whole, LoroDoc.upTo_version]
  · rw [stays.pending]
    exact h.known o ho
  · rw [stays.pen] at held
    exact h.own k name held
  · rw [stays.pens] at held
    rw [stays.pen]
    exact h.named k held

theorem Registered.penStep (h : Registered l) {fresh : Writer} (ne : fresh ≠ l.doc.peer)
    (step : PenStep fresh l.store s) : Registered { l with store := s } := by
  refine ⟨fun w => ?_, fun o ho => ?_, fun k name held => ?_, fun k held => ?_⟩
  · rw [step.onDisk]
    exact h.below w
  · rw [step.pending]
    exact h.known o ho
  · rcases step.moves with ⟨same, _⟩ | ⟨_, _, _, gone, _⟩
    · rw [same] at held
      exact h.own k name held
    · rw [gone] at held
      cases held
  · rcases step.moves with ⟨same, pens⟩ | ⟨k', name, was, gone, pens⟩
    · rw [pens] at held
      rw [same]
      exact h.named k held
    · -- the one pen that named this writer has been given the fresh name
      rw [pens] at held
      by_cases hk : k = k'
      · rw [hk, AList.lookup_insert] at held
        exact absurd (Option.some.inj (Option.some.inj held)) ne
      · rw [AList.lookup_insert_ne hk] at held
        have only := h.named k held
        rw [was] at only
        exact absurd (Prod.mk.inj (Option.some.inj only)).1.symm hk

theorem Registered.take {l : Loaded} (h : Registered l) (ops : List SyncOp) :
    Registered
      { l with doc := l.doc.takeOps ops, store := l.store.recordImport (l.doc.reportOf ops) } :=
  ⟨fun w => Nat.le_trans (h.below w) (l.doc.reach_le_takeOps ops w),
    pendingKnown_takeOps h.known ops rfl, h.own, h.named⟩

theorem Registered.live (h : Registered l) (live : SameLive l l') : Registered l' := by
  have stays := h.stays (Stays.of_live live)
  obtain ⟨below, known, own, named⟩ := stays
  refine ⟨?_, ?_, ?_, ?_⟩ <;> rw [live.doc]
  · exact below
  · exact known
  · exact own
  · exact named

/-- A copy just loaded under a leased name is registered. -/
theorem Registered.load {io : Io} {unread : BlockName → Bool} {dir : Dir} {peer : Writer}
    {pen pile : Option Nat} {l : Loaded} (h : Sync.load io unread dir peer pen pile = .ok l)
    (leased : ∀ k, dir.pens.lookup k = some (some peer) → pen = some k) : Registered l := by
  obtain ⟨hdoc, _, honDisk, _, hpending⟩ := load_cases h
  obtain ⟨hpeer, hpens, hpen⟩ := load_pen h
  refine ⟨fun w => ?_, fun o ho => ?_, fun k name held => ?_, fun k held => ?_⟩
  · rw [honDisk, LoroDoc.upTo_version]
  · rw [hdoc] at ho
    rw [hpending]
    exact (readBlocks_accounts unread peer dir.blocks).known o ho
  · rw [hpen] at held
    obtain ⟨_, _, same⟩ := Option.map_eq_some_iff.mp held
    cases same
    exact hpeer.symm
  · rw [hpens, hpeer] at held
    rw [hpen, leased k held, hpeer]
    rfl

theorem Registered.reopened (h : Registered l) (stamp : Bool) : Registered (l.reopened stamp) := by
  obtain ⟨_, _, is⟩ := reopened_eq stamp l
  rw [is]
  exact ⟨h.below, h.known, h.own, h.named⟩

/-- An import that raises the counter of a writer was foreseen: the candidate reached further, or the
store knew of parked operations. -/
theorem foreseen_of_raised {ops : List SyncOp} (known : PendingKnown l.store l.doc)
    (hproj : projectedVersion io l spec (some ops) = .ok projected) {w : Writer}
    (raised : reach l.doc.applied w < reach (l.doc.takeOps ops).applied w) :
    l.doc.version.get w < projected.get w ∨ l.doc.version.get w < pendingOf l.store w := by
  obtain ⟨o, ho, rfl, hc⟩ := (l.doc.takeOps ops).causal.exists_of_lt raised
  rcases LoroDoc.mem_of_mem_takeOps ho with held | parked | new
  · exact absurd (l.doc.causal.held held) (by rw [Held, hc]; exact Nat.lt_irrefl _)
  · obtain ⟨stop, hstop, lt⟩ := known o parked
    right
    rw [LoroDoc.get_version, pendingOf, hstop, ← hc]
    exact Int.ofNat_lt.mpr lt
  · left
    unfold projectedVersion at hproj
    split at hproj
    · cases hproj
    · split at hproj
      · cases hproj
      · split at hproj
        · cases hproj
        · split at hproj
          · cases hproj
          · rename_i seeded _
            split at hproj
            · cases hproj
            · simp only [LoroDoc.mergeReport] at hproj
              split at hproj
              · cases hproj
              · rename_i resolved
                split at hproj
                · cases hproj
                · cases hproj
                  -- the body left nothing waiting, so the candidate holds this operation
                  have none := eq_nil_of_spansOf (not_not.mp resolved)
                  have held : Held (seeded.takeOps ops).applied o := by
                    rcases seeded.held_or_parked_takeOps (Or.inr new) with held | waiting
                    · exact held
                    · have mem : o ∈ (seeded.takeOps ops).parked.filter (· ∈ ops) :=
                        List.mem_filter.mpr ⟨waiting, decide_eq_true new⟩
                      rw [none] at mem
                      cases mem
                  rw [LoroDoc.get_version, LoroDoc.get_version, ← hc]
                  exact Int.ofNat_lt.mpr held

/-! ### Runs -/

/-- What happens to one open copy: what happens to any copy, checked imports, and whatever other
processes make of the directory. -/
inductive Event where
  | copy (e : Durability.Event)
  | apply (io : ApplyIo) (spec : ApplySpec) (bytes : Bytes)
  | others (dir : Dir)

def step (l : Loaded) : Event → Loaded
  | .copy e => Durability.step l e
  | .apply io spec bytes => (applyChecked io l spec bytes).2
  | .others dir => { l with store := { l.store with dir := dir } }

/-- Fresh names are not the copy's own, a reload is leased (of the directory's pens only the one it is
given names its writer), and other processes write this copy's name into no pen. -/
def Leased (l : Loaded) : Event → Prop
  | .copy (.wireMerge io _) => io.freshName ≠ l.doc.peer
  | .copy (.reload _ _ peer pen) =>
      ∀ k, l.store.dir.pens.lookup k = some (some peer) → pen = some k
  | .apply io _ _ => io.retire.freshName ≠ l.doc.peer ∧ io.tookIn.freshName ≠ l.doc.peer
  | .others dir => ∀ k, dir.pens.lookup k = some (some l.doc.peer) →
      l.store.dir.pens.lookup k = some (some l.doc.peer)
  | _ => True

def Step (l l' : Loaded) : Prop := ∃ e, Leased l e ∧ l' = step l e

theorem writeBlock_stays (doc : LoroDoc) (s : BlockStore) (name : BlockName) (bytes : Bytes) :
    Stays doc s (s.writeBlock name bytes) := ⟨Or.inl rfl, rfl, rfl, rfl, rfl⟩

theorem remember_stays (doc : LoroDoc) (s : BlockStore) (name : BlockName) :
    Stays doc s (s.remember name) := ⟨Or.inl rfl, rfl, rfl, rfl, rfl⟩

theorem deleteBlock_stays (io : Io) (doc : LoroDoc) (s : BlockStore) (name : BlockName) :
    Stays doc s (s.deleteBlock io name) := ⟨Or.inl rfl, rfl, rfl, rfl, rfl⟩

theorem foldl_deleteBlock_stays {io : Io} (names : List BlockName) (s : BlockStore) :
    Stays doc s (names.foldl (deleteBlock io) s) := by
  induction names generalizing s with
  | nil => exact .of_books (.refl s)
  | cons gone names ih =>
      exact (deleteBlock_stays io doc s gone).trans (ih (s.deleteBlock io gone))

theorem settleLedger_stays {α : Type} {io : Io} {result : α} {r : Except String α}
    (h : settleLedger io doc result s = (r, s')) : Stays doc s s' := by
  rcases settleLedger_cases h with ⟨_, _, rfl⟩ | ⟨_, rfl⟩
  · exact .of_books (.refl _)
  · exact ⟨Or.inr rfl, rfl, rfl, rfl, rfl⟩

theorem compact_stays {io : Io} {r : Except String BlockName} (h : s.compact io doc = (r, s')) : Stays doc s s' := by
  unfold compact at h
  split at h
  · cases h
    exact .of_books (.refl _)
  · split at h
    · rename_i hmade
      cases h
      exact .of_books (makeDir_books hmade)
    · rename_i s₁ hmade
      have made : Stays doc s s₁ := .of_books (makeDir_books hmade)
      dsimp only at h
      split at h
      · cases h
        exact made
      · split at h
        · cases h
          exact made
        · rename_i seq _ _ _
          have wrote : Stays doc s (s₁.writeBlock (.block .snap doc.peerId seq) doc.snapshot) :=
            made.trans (writeBlock_stays doc s₁ _ _)
          refine Stays.trans ?_ (settleLedger_stays h)
          exact Stays.trans (Stays.trans wrote (foldl_deleteBlock_stays _ _)) (remember_stays doc _ _)

theorem registered_settle {report : MergeReport} {retired : Option Writer} (h : Registered l)
    (fresh : io.tookIn.freshName ≠ l.doc.peer) (hsettle : settle io spec before report retired l = (r, l')) :
    Registered l' := by
  obtain ⟨doc, s₁, penned, stays, _⟩ := settle_cases hsettle
  have settled := (h.penStep fresh penned).stays stays
  obtain ⟨below, known, own, named⟩ := settled
  refine ⟨?_, ?_, ?_, ?_⟩ <;> rw [doc]
  · exact below
  · exact known
  · exact own
  · exact named

theorem registered_apply (h : Registered l)
    (fresh : io.retire.freshName ≠ l.doc.peer ∧ io.tookIn.freshName ≠ l.doc.peer)
    (happly : applyChecked io l spec bytes = (r, l')) : Registered l' := by
  rcases apply_cases happly with ⟨_, live⟩ | ⟨projected, l₁, _, live, _, hcommit⟩
  · exact h.live live
  · have h₁ := h.live live
    rw [← live.doc] at fresh
    obtain ⟨s₁, penned, ⟨_, rfl⟩ | ⟨ops, retired, _, _, hsettle⟩⟩ := commit_cases hcommit
    · exact h₁.penStep fresh.1 penned
    · exact registered_settle ((h₁.penStep fresh.1 penned).take ops) fresh.2 hsettle

/-- Step lemma: every event of a leased run keeps the copy registered. -/
theorem registered_step {e : Event} (leased : Leased l e) (h : Registered l) : Registered (step l e) := by
  cases e with
  | apply io spec bytes => exact registered_apply h leased rfl
  | others dir => exact ⟨h.below, h.known, h.own, fun k held => h.named k (leased k held)⟩
  | copy e =>
      cases e with
      | edit deps body =>
          rcases l.doc.commit_cases deps body with same | ⟨_, happlied, hparked⟩
          · simp only [step, Durability.step, same]
            exact h
          · have peer := l.doc.commit_peer deps body
            refine ⟨fun w => Nat.le_trans (h.below w) ?_, fun o ho => h.known o ?_, ?_, ?_⟩
            · simp only [step, Durability.step, happlied]
              exact reach_le_append _ _ w
            · simpa only [step, Durability.step, hparked] using ho
            · simp only [step, Durability.step, peer]
              exact h.own
            · simp only [step, Durability.step, peer]
              exact h.named
      | flush io => exact h.stays (flush_stays (Prod.eta _).symm)
      | absorb io name bytes =>
          rcases absorb_cases (Prod.eta (l.store.absorb io l.doc name bytes)).symm with
            ⟨_, _, _, hdoc, hstore⟩ | ⟨ops, _, hdoc, outcome⟩
          · simp only [step, Durability.step, hdoc, hstore]
            exact h
          · simp only [step, Durability.step, hdoc]
            have taken := h.take ops
            rcases outcome with ⟨_, _, books⟩ | ⟨s₁, ⟨s₂, books, rfl⟩, ⟨_, _, hs⟩ | ⟨_, hs⟩⟩
            · exact taken.stays (.of_books books)
            · rw [hs]
              exact taken.stays ⟨Or.inl books.onDisk, books.pending, books.pens, books.pen, books.epoch⟩
            · rw [hs]
              refine taken.stays ⟨Or.inr ?_, books.pending, books.pens, books.pen, books.epoch⟩
              exact congrArg LoroDoc.version hdoc
      | compact io => exact h.stays (compact_stays (Prod.eta _).symm)
      | recordImport report =>
          exact ⟨h.below, fun o ho => recorded_rememberPending (Or.inl (h.known o ho)), h.own, h.named⟩
      | wireMerge io bytes =>
          cases hmerge : l.doc.mergeReport bytes with
          | error why => simpa [step, Durability.step, hmerge] using h
          | ok merged =>
              obtain ⟨report, doc⟩ := merged
              obtain ⟨ops, _, rfl, rfl⟩ := LoroDoc.mergeReport_cases hmerge
              simp only [step, Durability.step, hmerge]
              exact ((h.take ops).penStep leased (tookIn_step io l.doc.version _ _)).stays
                (flush_stays (Prod.eta _).symm)
      | reload io unread peer pen =>
          cases hload : load io unread l.store.dir peer pen l.pile with
          | error why => simpa [step, Durability.step, hload] using h
          | ok loaded => simpa [step, Durability.step, hload] using (Registered.load hload leased).reopened _

/-- Run lemma. -/
theorem registered_run (run : Relation.ReflTransGen Step l l') (h : Registered l) : Registered l' := by
  induction run with
  | refl => exact h
  | tail _ hstep ih =>
      obtain ⟨e, leased, rfl⟩ := hstep
      exact registered_step leased ih

/-- The copies this module is about: opened from a directory under a leased name, as a pile or not, after any run. -/
def Reached (l : Loaded) : Prop :=
  ∃ (io : Io) (unread : BlockName → Bool) (dir : Dir) (peer : Writer) (pen pile : Option Nat)
    (l₀ : Loaded), (load io unread dir peer pen pile = .ok l₀ ∨ loadPile io unread dir peer pen pile = .ok l₀) ∧
      (∀ k, dir.pens.lookup k = some (some peer) → pen = some k) ∧ Relation.ReflTransGen Step l₀ l

theorem Reached.registered (h : Reached l) : Registered l := by
  obtain ⟨io, unread, dir, peer, pen, pile, l₀, hload | hload, leased, run⟩ := h
  · exact registered_run run (.load hload leased)
  · obtain ⟨loaded, ran, rfl⟩ := loadPile_load hload
    exact registered_run run ((Registered.load ran leased).reopened true)

/-! ### All or proved -/

theorem validate_cases (h : validate io l spec bytes = .ok projected) :
    spec.expectedEpoch = l.store.epoch ∧ l.store.onDisk.Includes spec.baseVv ∧
      projectedVersion io l spec bytes = .ok projected := by
  unfold validate at h
  split at h
  · cases h
  · rename_i epoch
    split at h
    · cases h
    · split at h
      · cases h
      · rename_i base
        rw [not_or, not_not, not_not] at base
        exact ⟨not_not.mp epoch, base.2, h⟩

/-- An import that raises the writer's own counter leaves no pen that names the writer, however the
call ends. -/
theorem pen_of_raised (h : Registered l) (fresh : io.retire.freshName ≠ l.doc.peer ∧ io.tookIn.freshName ≠ l.doc.peer)
    (happly : applyChecked io l spec bytes = (r, l'))
    (raised : reach l.doc.applied l.doc.peer < reach l'.doc.applied l.doc.peer) :
    ∀ k, l'.store.dir.pens.lookup k ≠ some (some l.doc.peer) := by
  have final := registered_apply h fresh happly
  rcases apply_cases happly with ⟨_, live⟩ | ⟨projected, l₁, hvalid, live, _, hcommit⟩
  · rw [live.doc] at raised
    exact absurd raised (Nat.lt_irrefl _)
  · obtain ⟨s₁, penned, ⟨_, rfl⟩ | ⟨ops, retired, rfl, foreseen, hsettle⟩⟩ := commit_cases hcommit
    · rw [live.doc] at raised
      exact absurd raised (Nat.lt_irrefl _)
    · obtain ⟨doc, s₂, penned₂, stays, _⟩ := settle_cases hsettle
      simp only [live.doc] at doc foreseen
      rw [doc] at raised
      have advance := foreseen_of_raised h.known (validate_cases hvalid).2.2 raised
      have gone : s₁.pen = none := by
        cases held : s₁.pen with
        | none => rfl
        | some pen =>
            obtain ⟨k, name⟩ := pen
            have own := ((h.live live).penStep (live.doc ▸ fresh.1) penned).own k name held
            have still := foreseen k name held
            rw [show name = l.doc.peer by rw [own, live.doc]] at still
            rw [show pendingOf l₁.store l.doc.peer = pendingOf l.store l.doc.peer by
              rw [pendingOf, pendingOf, live.pending]] at still
            omega
      have gone₂ : s₂.pen = none := by
        rcases penned₂.moves with ⟨same, _⟩ | ⟨_, _, _, none, _⟩
        · rw [same]
          exact gone
        · exact none
      intro k held
      have peer : l'.doc.peer = l.doc.peer := by rw [doc, LoroDoc.takeOps_peer]
      have lent := final.named k (by rw [peer]; exact held)
      rw [stays.pen, gone₂] at lent
      cases lent

/-- An error other than a failed commit: only the fence was touched. -/
theorem live_of_refused {e : ApplyError} (happly : applyChecked io l spec bytes = (.error e, l'))
    (refused : ∀ why, e ≠ .commitFailed why) : SameLive l l' := by
  rcases apply_cases happly with ⟨_, live⟩ | ⟨projected, l₁, _, _, _, hcommit⟩
  · exact live
  · obtain ⟨s₁, _, ⟨⟨why, he⟩, _⟩ | ⟨ops, retired, _, _, hsettle⟩⟩ := commit_cases hcommit
    · cases he
      exact absurd rfl (refused why)
    · obtain ⟨_, _, _, _, ⟨why, he⟩ | ⟨_, _, _, _, he, _⟩⟩ := settle_cases hsettle
      · cases he
        exact absurd rfl (refused why)
      · cases he

/-- A call that succeeds: the versions it promises, the epoch it checked, and every operation it applied
in a block file. -/
theorem landed_of_ok {result : FlushedImport} (happly : applyChecked io l spec bytes = (.ok result, l')) :
    result.version = l'.doc.version ∧ covers l'.doc.version l.doc.version spec ∧
      covers l'.store.onDisk l.doc.version spec ∧
      l'.store.epoch = spec.expectedEpoch ∧ readEpoch l'.store.dir = spec.expectedEpoch ∧
      ((∀ w, l.store.onDisk.upTo w ≤ reach l.doc.applied w) →
        ∀ o ∈ l'.doc.applied, o ∉ l.doc.applied → l'.store.dir.Has o) := by
  rcases apply_cases happly with ⟨⟨_, he⟩, _⟩ | ⟨projected, l₁, hvalid, live, _, hcommit⟩
  · cases he
  · obtain ⟨s₁, penned, ⟨⟨_, he⟩, _⟩ | ⟨ops, retired, _, _, hsettle⟩⟩ := commit_cases hcommit
    · cases he
    · obtain ⟨doc, s₂, penned₂, stays, ⟨_, he⟩ | ⟨s₃, s₄, name, _, hr, hversion, _, covered, disk,
        hflush, blocks, epoch, whole, target⟩⟩ := settle_cases hsettle
      · cases he
      · cases hr
        simp only [live.doc] at doc covered hflush whole hversion
        rw [← doc] at covered whole hversion hflush
        have below : covers l'.store.onDisk l.doc.version spec :=
          ⟨whole.trans covered.1, whole.trans covered.2.1, target⟩
        have sameEpoch : l'.store.epoch = spec.expectedEpoch := by
          rw [(validate_cases hvalid).1, stays.epoch, penned₂.epoch]
          exact penned.epoch.trans live.epoch
        refine ⟨hversion, covered, below, sameEpoch, epoch, fun held o ho new => ?_⟩
        have above : s₃.onDisk.upTo o.writer ≤ o.counter := by
          have same : s₃.onDisk = l.store.onDisk := disk.trans (penned.onDisk.trans live.onDisk)
          rw [same]
          refine Nat.le_trans (held o.writer) (Nat.le_of_not_lt fun lt => new ?_)
          rw [doc] at ho
          exact Durability.mem_of_held_takeOps ho lt
        obtain ⟨file, ops', hfile, mem⟩ := has_of_flush_ok hflush ho above
        exact ⟨file, ops', by rw [blocks]; exact hfile, mem⟩

/-- A checked import is all or proved. An error other than a failed commit leaves the document, what
counts as on disk, the block files and the pens as they were. A success has everything it promises in
the document and in block files, under the epoch it names. And however the call ends, no pen of the
directory names the writer once the import has raised the writer's own counter. -/
theorem apply_all_or_proved {io : ApplyIo} {spec : ApplySpec} {bytes : Bytes} {l l' : Loaded}
    {r : Except ApplyError FlushedImport} (happly : applyChecked io l spec bytes = (r, l')) :
    (∀ e, r = .error e → (∀ why, e ≠ .commitFailed why) → l'.doc = l.doc ∧ l'.store.onDisk = l.store.onDisk ∧
        l'.store.dir.blocks = l.store.dir.blocks ∧ l'.store.dir.pens = l.store.dir.pens ∧
        l'.store.pen = l.store.pen) ∧
    (∀ result, r = .ok result →
      covers l'.doc.version l.doc.version spec ∧ covers l'.store.onDisk l.doc.version spec ∧
        l'.store.epoch = spec.expectedEpoch ∧ readEpoch l'.store.dir = spec.expectedEpoch ∧
        (Reached l → ∀ o ∈ l'.doc.applied, o ∉ l.doc.applied → l'.store.dir.Has o)) ∧
    (Reached l → io.retire.freshName ≠ l.doc.peer → io.tookIn.freshName ≠ l.doc.peer →
      reach l.doc.applied l.doc.peer < reach l'.doc.applied l.doc.peer →
      ∀ k, l'.store.dir.pens.lookup k ≠ some (some l.doc.peer)) := by
  refine ⟨?refused, ?landed, ?raised⟩
  case refused =>
    rintro e rfl refused
    have live := live_of_refused happly refused
    exact ⟨live.doc, live.onDisk, live.blocks, live.pens, live.pen⟩
  case landed =>
    rintro result rfl
    obtain ⟨_, covered, below, epoch, disk, has⟩ := landed_of_ok happly
    exact ⟨covered, below, epoch, disk, fun reached => has reached.registered.below⟩
  case raised =>
    intro reached fresh fresh' raised
    exact pen_of_raised reached.registered ⟨fresh, fresh'⟩ happly raised

/-! ### A writer's own operation comes back -/

/-- A directory whose one pen was lent to writer 1, before any block. -/
def lentDir : Dir :=
  { Dir.fresh ['d'] with pens := AList.insert 0 (some 1) ∅, pile := some 0 }

/-- Writer 1, open under that pen. -/
def lent : Loaded :=
  { store :=
      { dir := lentDir, onDisk := ∅, ledger := ∅, held := ∅, epoch := 0, stamp := false,
        pen := some (0, 1), retired := none, pending := ∅ }
    doc := .open 1
    broken := []
    pile := some 0 }

/-- Name 9 is there to retire the pen to. -/
def spareName : ApplyIo := { retire := { freshName := 9 }, tookIn := { freshName := 9 } }

def fromNothing : ApplySpec := { expectedEpoch := 0, baseVv := ∅, targetVv := ∅ }

/-- An import of writer 1's first operation. -/
def returned : Except ApplyError FlushedImport × Loaded :=
  applyChecked spareName lent fromNothing (some [⟨1, 0, [], 7⟩])

/-- The operation lands in a block file and the pen no longer names writer 1. -/
theorem returned_lands : returned.2.store.dir.Has ⟨1, 0, [], 7⟩ ∧
    ∀ k, returned.2.store.dir.pens.lookup k ≠ some (some 1) := by
  have reached : Reached lent := by
    refine ⟨{}, fun _ => false, lentDir, 1, some 0, some 0, lent, .inl rfl, fun k held => ?_, .refl⟩
    by_cases zero : k = 0
    · rw [zero]
    · rw [show lentDir.pens.lookup k = none from AList.lookup_insert_ne zero] at held
      cases held
  have happly : applyChecked spareName lent fromNothing (some [⟨1, 0, [], 7⟩]) =
      (returned.1, returned.2) := rfl
  obtain ⟨_, landed, raised⟩ := apply_all_or_proved happly
  obtain ⟨_, _, _, _, has⟩ := landed _ rfl
  have taken : (⟨1, 0, [], 7⟩ : SyncOp) ∈ returned.2.doc.applied := by decide
  exact ⟨has reached _ taken (by decide), raised reached (by decide) (by decide) (by decide)⟩

end Khor.Sync.StoreApply
