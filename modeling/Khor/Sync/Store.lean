/-
Module: Khor.Sync.Store
Purpose: One document's stack of block files and the copy that reads and writes it: loading, flushing,
  taking in a foreign block, compacting, and the retirement of a pen. Every file step may fail with an
  error text; a call that fails leaves the state its completed steps made.
Trusted boundary: each file step lands whole or not at all (temp file, sync, rename)
Main exports: BlockName, Dir, BlockStore, BlockStore.flush, absorb_cases
-/
import Khor.Lib.Decimal
import Khor.Sync.Doc

namespace Khor.Sync

/-! ### The directory -/

/-- The two kinds of block file a copy writes. -/
inductive BlockKind where
  | u
  | snap
deriving DecidableEq

/-- The name of a block file: `u-<writer>-<seq>` or `snap-<writer>-<seq>`, or any other name that
carries the block extension. -/
inductive BlockName where
  | block (kind : BlockKind) (writer : Writer) (seq : Nat)
  | other (name : Text)
deriving DecidableEq

/-- A pile's epoch file, as a read finds it. -/
inductive EpochFile where
  | absent
  | unreadable (why : String)
  | notUtf8
  | text (content : Text)
deriving DecidableEq

/-- A document's directory: its block files, the ledger `.merged`, the epoch file, the pens
`.pen-<k>` with the name each one parses to, and the identity of the lock file `.pile`. -/
structure Dir where
  name : Text
  isDir : Bool
  blocks : AList (fun _ : BlockName => Bytes)
  merged : Finset BlockName
  epochFile : EpochFile
  pens : AList (fun _ : Nat => Option Writer)
  pile : Option Nat

/-- A directory nothing has been written to. -/
def Dir.fresh (name : Text) : Dir :=
  { name := name, isDir := false, blocks := ∅, merged := ∅, epochFile := .absent, pens := ∅,
    pile := none }

/-- Some block file of the directory holds the operation. -/
def Dir.Has (dir : Dir) (o : SyncOp) : Prop :=
  ∃ name ops, dir.blocks.lookup name = some (some ops) ∧ o ∈ ops

/-- Read a pile's epoch: what its epoch file says, 0 with none. -/
def readEpoch (dir : Dir) : Nat :=
  match dir.epochFile with
  | .text content => (parseBounded (2 ^ 32) (trim content)).getD 0
  | _ => 0

theorem readEpoch_of_file {dir dir' : Dir} (file : dir'.epochFile = dir.epochFile) :
    readEpoch dir' = readEpoch dir := by
  rw [readEpoch, file, readEpoch]

/-- The epoch of a pile that is new to this build. -/
def EPOCH : Nat := 1

/-- The text an epoch file is written with. -/
def epochText (epoch : Nat) : Text := decimal epoch ++ ['\n']

/-! ### One open copy -/

/-- Highest pending end per writer. -/
abbrev Pending := AList (fun _ : Writer => Nat)

/-- One document's stack on disk. `dir` is the directory as this copy's next step finds it. -/
structure BlockStore where
  dir : Dir
  onDisk : SyncVersion
  ledger : Finset BlockName
  held : Finset BlockName
  epoch : Nat
  stamp : Bool
  pen : Option (Nat × Writer)
  retired : Option Writer
  pending : Pending

/-- What a load returns; `pile` is the lock file the lease holds shared, if it holds one. -/
structure Loaded where
  store : BlockStore
  doc : LoroDoc
  broken : List BlockName
  pile : Option Nat

/-- What the outside answers during one call: for each file step, the error it fails with if it
fails, and the name `fresh_name` mints. -/
structure Io where
  makeDir : Option String := none
  writeEpoch : Option String := none
  writeBlock : Option String := none
  saveLedger : Option String := none
  writePen : Option String := none
  freshName : Writer := 0
  stuck : BlockName → Bool := fun _ => false

/-- `remember_pending`. -/
def rememberPending (pending : Pending) (report : MergeReport) : Pending :=
  report.pending.foldl
    (fun known span =>
      known.insert span.writer (max ((known.lookup span.writer).getD 0) span.stop))
    pending

namespace BlockStore

/-- `record_import`: register the report of an import into this store's document. -/
def recordImport (s : BlockStore) (report : MergeReport) : BlockStore :=
  { s with pending := rememberPending s.pending report }

/-- `has_unresolved_imports`. -/
def hasUnresolvedImports (s : BlockStore) (doc : LoroDoc) : Bool :=
  s.pending.entries.any fun e => decide (doc.version.get e.1 < (e.2 : Int))

/-- `make_dir`: the directory, and an empty pile's epoch file before its first block. -/
def makeDir (io : Io) (s : BlockStore) : Except String Unit × BlockStore :=
  match io.makeDir with
  | some why => (.error why, s)
  | none =>
      let made := { s with dir := { s.dir with isDir := true } }
      if !s.stamp then (.ok (), made)
      else if s.dir.epochFile ≠ .absent then (.ok (), { made with stamp := false })
      else
        match io.writeEpoch with
        | some why => (.error why, made)
        | none =>
            (.ok (), { made with
                dir := { made.dir with epochFile := .text (epochText s.epoch) }
                stamp := false })

/-- One more than the number a name carries, when it is a name of this kind and writer. -/
def numberAfter (kind : BlockKind) (writer : Writer) : BlockName → Nat
  | .block k w seq => if k = kind ∧ w = writer then seq + 1 else 0
  | .other _ => 0

/-- `next_number`: the number after every name of this kind and writer on disk or in the ledger.
Numbers are `u32`; past the last one the addition overflows and the call stops. -/
def nextNumber (s : BlockStore) (kind : BlockKind) (writer : Writer) : Option Nat :=
  let next := (s.dir.blocks.keys.toFinset ∪ s.ledger).sup (numberAfter kind writer)
  if next < 2 ^ 32 then some next else none

/-- `write_atomic` of a block file: the whole block under its name. -/
def writeBlock (s : BlockStore) (name : BlockName) (bytes : Bytes) : BlockStore :=
  { s with dir := { s.dir with blocks := s.dir.blocks.insert name bytes } }

/-- Remember a block file: it is merged, and this copy holds what is in it. -/
def remember (s : BlockStore) (name : BlockName) : BlockStore :=
  { s with ledger := insert name s.ledger, held := insert name s.held }

/-- `save_ledger`: the whole ledger file, from this copy's memory. -/
def saveLedger (s : BlockStore) : BlockStore :=
  { s with dir := { s.dir with merged := s.ledger } }

/-- The end of flushing, absorbing and compacting: the ledger is saved, and only then does the whole
live version count as on disk. -/
def settleLedger {α : Type} (io : Io) (doc : LoroDoc) (result : α) (s : BlockStore) :
    Except String α × BlockStore :=
  match io.saveLedger with
  | some why => (.error why, s)
  | none => (.ok result, { s.saveLedger with onDisk := doc.version })

/-- `flush`: write what the document has beyond `on_disk` as one new block, `none` when there is
nothing new. -/
def flush (io : Io) (doc : LoroDoc) (s : BlockStore) :
    Except String (Option BlockName) × BlockStore :=
  if doc.version.Same s.onDisk then (.ok none, s)
  else
    match s.makeDir io with
    | (.error why, s) => (.error why, s)
    | (.ok (), s) =>
        match s.nextNumber .u doc.peerId with
        | none => (.error "attempt to add with overflow", s)
        | some seq =>
            let name := BlockName.block .u doc.peerId seq
            match io.writeBlock with
            | some why => (.error why, s)
            | none =>
                settleLedger io doc (some name)
                  ((s.writeBlock name (doc.changesSince s.onDisk)).remember name)

/-- `absorb`: take in a block pulled from the far side: merge, write, then ledger. -/
def absorb (io : Io) (doc : LoroDoc) (s : BlockStore) (name : BlockName) (bytes : Bytes) :
    Except String Unit × LoroDoc × BlockStore :=
  match doc.mergeReport bytes with
  | .error why => (.error why, doc, s)
  | .ok (report, doc) =>
      match (s.recordImport report).makeDir io with
      | (.error why, s) => (.error why, doc, s)
      | (.ok (), s) =>
          match io.writeBlock with
          | some why => (.error why, doc, s)
          | none =>
              let (result, s) := settleLedger io doc () ((s.writeBlock name bytes).remember name)
              (result, doc, s)

/-- Delete one block file during compaction. The copy stops holding it whether or not the file
goes. -/
def deleteBlock (io : Io) (s : BlockStore) (name : BlockName) : BlockStore :=
  { s with
    held := s.held.erase name
    dir := { s.dir with
      blocks := if io.stuck name then s.dir.blocks else s.dir.blocks.erase name } }

/-- `compact`: write the current state as one snapshot block, then delete the blocks this copy
holds. -/
def compact (io : Io) (doc : LoroDoc) (s : BlockStore) : Except String BlockName × BlockStore :=
  if s.hasUnresolvedImports doc then (.error "cannot compact unresolved CRDT imports", s)
  else
    match s.makeDir io with
    | (.error why, s) => (.error why, s)
    | (.ok (), s) =>
        let old := s.dir.blocks.keys.filter (· ∈ s.held)
        match s.nextNumber .snap doc.peerId with
        | none => (.error "attempt to add with overflow", s)
        | some seq =>
            let path := BlockName.block .snap doc.peerId seq
            match io.writeBlock with
            | some why => (.error why, s)
            | none =>
                let s := s.writeBlock path doc.snapshot
                let s := (old.filter (· ≠ path)).foldl (deleteBlock io) s
                settleLedger io doc path (s.remember path)

/-- `took_in`: if an import raised the counter of this copy's own name, its pen is given a fresh name
and the old one is retired. A pen that cannot be written keeps the name. -/
def tookIn (io : Io) (before : SyncVersion) (doc : LoroDoc) (s : BlockStore) :
    Option Writer × BlockStore :=
  match s.pen with
  | none => (none, s)
  | some (k, name) =>
      if doc.version.get name ≤ before.get name then (none, s)
      else
        match io.writePen with
        | some _ => (none, s)
        | none =>
            (some name, { s with
                dir := { s.dir with pens := s.dir.pens.insert k (some io.freshName) }
                pen := none
                retired := some name })

/-! ### What each step can do -/

/-- Two states of a copy with the same books: everything but the directory's existence, its epoch
file and the stamp. -/
structure SameBooks (s s' : BlockStore) : Prop where
  blocks : s'.dir.blocks = s.dir.blocks
  merged : s'.dir.merged = s.dir.merged
  pens : s'.dir.pens = s.dir.pens
  pile : s'.dir.pile = s.dir.pile
  onDisk : s'.onDisk = s.onDisk
  ledger : s'.ledger = s.ledger
  held : s'.held = s.held
  epoch : s'.epoch = s.epoch
  pen : s'.pen = s.pen
  retired : s'.retired = s.retired
  pending : s'.pending = s.pending

theorem SameBooks.refl (s : BlockStore) : SameBooks s s :=
  ⟨rfl, rfl, rfl, rfl, rfl, rfl, rfl, rfl, rfl, rfl, rfl⟩

variable {io : Io} {s s' : BlockStore} {r : Except String Unit} {doc : LoroDoc}

/-- Making the directory touches no books. -/
theorem makeDir_books (h : s.makeDir io = (r, s')) : SameBooks s s' := by
  unfold makeDir at h
  split at h
  · cases h
    exact .refl s
  · simp only at h
    split at h
    · cases h
      exact ⟨rfl, rfl, rfl, rfl, rfl, rfl, rfl, rfl, rfl, rfl, rfl⟩
    · split at h
      · cases h
        exact ⟨rfl, rfl, rfl, rfl, rfl, rfl, rfl, rfl, rfl, rfl, rfl⟩
      · split at h <;>
          · cases h
            exact ⟨rfl, rfl, rfl, rfl, rfl, rfl, rfl, rfl, rfl, rfl, rfl⟩

/-- The number taken is past every number in use, on disk or in the ledger. -/
theorem lt_of_nextNumber {kind : BlockKind} {writer : Writer} {next seq : Nat}
    (h : s.nextNumber kind writer = some next) (used : BlockName.block kind writer seq ∈ s.dir.blocks ∨
      BlockName.block kind writer seq ∈ s.ledger) : seq < next := by
  unfold nextNumber at h
  simp only at h
  split at h
  · cases h
    have mem : BlockName.block kind writer seq ∈ s.dir.blocks.keys.toFinset ∪ s.ledger := by
      rw [Finset.mem_union, List.mem_toFinset, ← AList.mem_keys]
      exact used
    have le := Finset.le_sup (f := numberAfter kind writer) mem
    simpa [numberAfter, Nat.succ_le_iff] using le
  · cases h

/-- The name of the next number is free. -/
theorem notMem_of_nextNumber {kind : BlockKind} {writer : Writer} {next : Nat}
    (h : s.nextNumber kind writer = some next) : BlockName.block kind writer next ∉ s.dir.blocks :=
  fun used => Nat.lt_irrefl _ (lt_of_nextNumber h (Or.inl used))

/-- The ledger is saved and the live version counts as on disk, or neither. -/
theorem settleLedger_cases {α : Type} {result : α} {r : Except String α} (h : settleLedger io doc result s = (r, s')) :
    (∃ why, r = .error why ∧ s' = s) ∨
      (r = .ok result ∧ s' = { s.saveLedger with onDisk := doc.version }) := by
  unfold settleLedger at h
  split at h
  · cases h
    exact Or.inl ⟨_, rfl, rfl⟩
  · cases h
    exact Or.inr ⟨rfl, rfl⟩

/-- A copy that has written `bytes` under `name` and remembers it, from books as in `s`. -/
def Wrote (s : BlockStore) (name : BlockName) (bytes : Bytes) (s' : BlockStore) : Prop :=
  ∃ s₁, SameBooks s s₁ ∧ s' = (s₁.writeBlock name bytes).remember name

/-- Everything a flush can do: nothing, because nothing is new; nothing, because a step before the
write failed; write the block but not the ledger; or all of it. -/
theorem flush_cases {r : Except String (Option BlockName)} (h : s.flush io doc = (r, s')) :
    (doc.version.Same s.onDisk ∧ r = .ok none ∧ s' = s) ∨
      (∃ why, r = .error why ∧ SameBooks s s') ∨
      ∃ seq s₁, BlockName.block .u doc.peer seq ∉ s.dir.blocks ∧
        Wrote s (.block .u doc.peer seq) (doc.changesSince s.onDisk) s₁ ∧
        ((∃ why, r = .error why ∧ s' = s₁) ∨ (r = .ok (some (.block .u doc.peer seq)) ∧
            s' = { s₁.saveLedger with onDisk := doc.version })) := by
  unfold flush at h
  split at h
  · rename_i same
    cases h
    exact Or.inl ⟨same, rfl, rfl⟩
  · right
    cases hmade : s.makeDir io with
    | mk made s₁ =>
        have books := makeDir_books hmade
        rw [hmade] at h
        cases made with
        | error why =>
            simp only at h
            cases h
            exact Or.inl ⟨why, rfl, books⟩
        | ok _ =>
            simp only at h
            cases hnext : s₁.nextNumber .u doc.peerId with
            | none =>
                rw [hnext] at h
                cases h
                exact Or.inl ⟨_, rfl, books⟩
            | some seq =>
                rw [hnext] at h
                simp only at h
                split at h
                · cases h
                  exact Or.inl ⟨_, rfl, books⟩
                · have free := notMem_of_nextNumber hnext
                  rw [books.blocks] at free
                  rw [books.onDisk] at h
                  exact Or.inr ⟨seq, _, free, ⟨s₁, books, rfl⟩, settleLedger_cases h⟩

/-- What is in a block after a flush was in one before or is held. -/
theorem has_of_flush {o : SyncOp} (h : (s.flush io doc).2.dir.Has o) : s.dir.Has o ∨ o ∈ doc.applied := by
  have old : ∀ {s' : BlockStore}, s'.dir.blocks = s.dir.blocks → s'.dir.Has o → s.dir.Has o := by
    rintro s' same ⟨name, ops, hlookup, hmem⟩
    exact ⟨name, ops, same ▸ hlookup, hmem⟩
  have new : ∀ {seq s₁}, Wrote s (.block .u doc.peer seq) (doc.changesSince s.onDisk) s₁ →
      s₁.dir.Has o → s.dir.Has o ∨ o ∈ doc.applied := by
    rintro seq s₁ ⟨s₂, books, rfl⟩ ⟨name, ops, hlookup, hmem⟩
    have inserted : (s₂.dir.blocks.insert (.block .u doc.peer seq)
        (doc.changesSince s.onDisk)).lookup name = some (some ops) := hlookup
    by_cases same : name = .block .u doc.peer seq
    · subst same
      rw [AList.lookup_insert] at inserted
      cases inserted
      exact Or.inr (mem_since.mp hmem).1
    · rw [AList.lookup_insert_ne same, books.blocks] at inserted
      exact Or.inl ⟨name, ops, inserted, hmem⟩
  rcases flush_cases (Prod.eta (s.flush io doc)).symm with ⟨_, _, same⟩ | ⟨_, _, books⟩ |
    ⟨seq, s₁, _, wrote, ⟨_, _, same⟩ | ⟨_, same⟩⟩
  · exact Or.inl (old (congrArg (·.dir.blocks) same) h)
  · exact Or.inl (old books.blocks h)
  · exact new wrote (same ▸ h)
  · rw [same] at h
    exact new wrote h

/-- A copy speaks in the epoch its directory names; or, with nothing in the directory yet, in this build's, which its
first write names there. -/
def InEpoch (s : BlockStore) : Prop :=
  (s.stamp = false ∧ readEpoch s.dir = s.epoch) ∨
    (s.stamp = true ∧ s.epoch = EPOCH ∧ s.dir.epochFile = .absent ∧ s.dir.blocks = ∅)

theorem InEpoch.makeDir (h : s.InEpoch) (made : s.makeDir io = (r, s')) :
    s'.InEpoch ∧ (r = .ok () → s'.stamp = false) := by
  unfold BlockStore.makeDir at made
  rcases h with ⟨stamp, named⟩ | ⟨stamp, epoch, file, empty⟩ <;> simp only [stamp, Bool.not_false, Bool.not_true] at made
  · split at made <;> cases made
    · exact ⟨.inl ⟨stamp, named⟩, fun _ => stamp⟩
    · exact ⟨.inl ⟨rfl, named⟩, fun _ => rfl⟩
  · split at made
    · cases made
      exact ⟨.inr ⟨stamp, epoch, file, empty⟩, by rintro ⟨⟩⟩
    · simp only [file, Bool.false_eq_true, if_false, ne_eq, not_true_eq_false] at made
      split at made <;> cases made
      · exact ⟨.inr ⟨rfl, epoch, rfl, empty⟩, by rintro ⟨⟩⟩
      · refine ⟨.inl ⟨rfl, ?_⟩, fun _ => rfl⟩
        rw [epoch]
        exact (by decide : (parseBounded (2 ^ 32) (trim (epochText EPOCH))).getD 0 = EPOCH)

/-- A flush leaves a copy in its epoch. -/
theorem InEpoch.flush {io : Io} {doc : LoroDoc} {s : BlockStore} (h : s.InEpoch) :
    (s.flush io doc).2.InEpoch ∧ (s.flush io doc).2.epoch = s.epoch := by
  unfold BlockStore.flush
  split
  · exact ⟨h, rfl⟩
  · split
    · rename_i failed
      exact ⟨(h.makeDir failed).1, (makeDir_books failed).epoch⟩
    · rename_i s₁ made
      obtain ⟨inside, stamped⟩ := h.makeDir made
      have same := (makeDir_books made).epoch
      -- whatever is written from here on, the epoch file stays
      have named := (inside.resolve_right fun new => by rw [stamped rfl] at new; cases new.1).2
      split
      · exact ⟨inside, same⟩
      · dsimp only
        split
        · exact ⟨inside, same⟩
        · unfold settleLedger
          split <;> exact ⟨.inl ⟨stamped rfl, named⟩, same⟩

/-- Everything taking in a foreign block can do. -/
theorem absorb_cases {doc' : LoroDoc} {name : BlockName} {bytes : Bytes}
    (h : s.absorb io doc name bytes = (r, doc', s')) : (∃ why, bytes = none ∧ r = .error why ∧ doc' = doc ∧ s' = s) ∨
      ∃ ops, bytes = some ops ∧ doc' = doc.takeOps ops ∧
        ((∃ why, r = .error why ∧ SameBooks (s.recordImport (doc.reportOf ops)) s') ∨
          ∃ s₁, Wrote (s.recordImport (doc.reportOf ops)) name bytes s₁ ∧ ((∃ why, r = .error why ∧ s' = s₁) ∨
              (r = .ok () ∧ s' = { s₁.saveLedger with onDisk := doc'.version }))) := by
  unfold absorb at h
  cases hmerge : doc.mergeReport bytes with
  | error why =>
      rw [hmerge] at h
      cases h
      refine Or.inl ⟨why, ?_, rfl, rfl, rfl⟩
      cases bytes with
      | none => rfl
      | some ops => simp [LoroDoc.mergeReport] at hmerge
  | ok merged =>
      obtain ⟨report, doc₁⟩ := merged
      obtain ⟨ops, rfl, rfl, rfl⟩ := LoroDoc.mergeReport_cases hmerge
      rw [hmerge] at h
      simp only at h
      refine Or.inr ⟨ops, rfl, ?_⟩
      cases hmade : (s.recordImport (doc.reportOf ops)).makeDir io with
      | mk made s₁ =>
          have books := makeDir_books hmade
          rw [hmade] at h
          cases made with
          | error why =>
              simp only at h
              cases h
              exact ⟨rfl, Or.inl ⟨why, rfl, books⟩⟩
          | ok _ =>
              simp only at h
              split at h
              · cases h
                exact ⟨rfl, Or.inl ⟨_, rfl, books⟩⟩
              · cases hsettle : settleLedger io (doc.takeOps ops) ()
                    ((s₁.writeBlock name (some ops)).remember name) with
                | mk result s₂ =>
                    rw [hsettle] at h
                    cases h
                    exact ⟨rfl, Or.inr ⟨_, ⟨s₁, books, rfl⟩, settleLedger_cases hsettle⟩⟩

/-- Deleting blocks leaves every other block file as it was. -/
theorem lookup_foldl_deleteBlock {io : Io} {names : List BlockName} {name : BlockName} (kept : name ∉ names)
    (s : BlockStore) : (names.foldl (deleteBlock io) s).dir.blocks.lookup name = s.dir.blocks.lookup name := by
  induction names generalizing s with
  | nil => rfl
  | cons gone names ih =>
      obtain ⟨ne, kept⟩ := List.ne_and_not_mem_of_not_mem_cons kept
      rw [List.foldl_cons, ih kept]
      unfold deleteBlock
      dsimp only
      split
      · rfl
      · exact AList.lookup_erase_ne ne

theorem onDisk_foldl_deleteBlock (names : List BlockName) (s : BlockStore) :
    (names.foldl (deleteBlock io) s).onDisk = s.onDisk := by
  induction names generalizing s with
  | nil => rfl
  | cons gone names ih => exact ih _

/-- Everything a compaction can do: nothing; or write the whole document as one snapshot and delete
other blocks, with or without the ledger saved after. -/
theorem compact_cases {r : Except String BlockName} (h : s.compact io doc = (r, s')) :
    (∃ why, r = .error why ∧ SameBooks s s') ∨
      ∃ path s₁, s₁.dir.blocks.lookup path = some doc.snapshot ∧ s₁.onDisk = s.onDisk ∧
        ((∃ why, r = .error why ∧ s' = s₁) ∨
          (r = .ok path ∧ s' = { s₁.saveLedger with onDisk := doc.version })) := by
  unfold compact at h
  split at h
  · cases h
    exact Or.inl ⟨_, rfl, .refl s⟩
  · cases hmade : s.makeDir io with
    | mk made s₁ =>
        have books := makeDir_books hmade
        rw [hmade] at h
        cases made with
        | error why =>
            simp only at h
            cases h
            exact Or.inl ⟨why, rfl, books⟩
        | ok _ =>
            simp only at h
            cases hnext : s₁.nextNumber .snap doc.peerId with
            | none =>
                rw [hnext] at h
                cases h
                exact Or.inl ⟨_, rfl, books⟩
            | some seq =>
                rw [hnext] at h
                simp only at h
                split at h
                · cases h
                  exact Or.inl ⟨_, rfl, books⟩
                · refine Or.inr ⟨.block .snap doc.peer seq, _, ?_, ?_, settleLedger_cases h⟩
                  · -- the snapshot's own name is left out of the deletions
                    have kept : BlockName.block .snap doc.peer seq ∉
                        (s₁.dir.blocks.keys.filter (· ∈ s₁.held)).filter
                          (· ≠ BlockName.block .snap doc.peer seq) := by
                      simp
                    have same := @lookup_foldl_deleteBlock io _ _ kept
                      (s₁.writeBlock (.block .snap doc.peer seq) doc.snapshot)
                    exact same.trans (AList.lookup_insert _)
                  · exact (onDisk_foldl_deleteBlock _ _).trans books.onDisk

/-- The pen is retired, or nothing happens; no books change. -/
theorem tookIn_books (io : Io) (before : SyncVersion) (doc : LoroDoc) (s : BlockStore) :
    (s.tookIn io before doc).2.dir.blocks = s.dir.blocks ∧
      (s.tookIn io before doc).2.onDisk = s.onDisk ∧
      (s.tookIn io before doc).2.pending = s.pending := by
  unfold tookIn
  repeat' split
  all_goals exact ⟨rfl, rfl, rfl⟩

/-- What `Peer::absorb` and `answer` both do after a merge: record its report, read it for this copy's
own name, and flush. -/
def keepMerged (io : Io) (before : SyncVersion) (doc : LoroDoc) (report : MergeReport)
    (s : BlockStore) : Except String (Option BlockName) × BlockStore :=
  ((s.recordImport report).tookIn io before doc).2.flush io doc

end BlockStore

/-! ### Pending ends -/

/-- The pending ends know of the operation. -/
def Recorded (pending : Pending) (o : SyncOp) : Prop :=
  ∃ stop, pending.lookup o.writer = some stop ∧ o.counter < stop

variable {pending : Pending} {o : SyncOp}

private theorem recorded_insert_max (span : ImportSpan)
    (h : Recorded pending o ∨ (span.writer = o.writer ∧ o.counter < span.stop)) : Recorded
      (pending.insert span.writer (max ((pending.lookup span.writer).getD 0) span.stop)) o := by
  by_cases hw : o.writer = span.writer
  · refine ⟨_, by rw [hw]; exact AList.lookup_insert _, ?_⟩
    rcases h with ⟨stop, hstop, hlt⟩ | ⟨_, hlt⟩
    · rw [← hw, hstop]
      exact Nat.lt_of_lt_of_le hlt (Nat.le_max_left _ _)
    · exact Nat.lt_of_lt_of_le hlt (Nat.le_max_right _ _)
  · rcases h with ⟨stop, hstop, hlt⟩ | ⟨same, _⟩
    · exact ⟨stop, by rw [AList.lookup_insert_ne hw]; exact hstop, hlt⟩
    · exact absurd same.symm hw

private theorem recorded_foldl {spans : List ImportSpan} (h : Recorded pending o ∨ Reported spans o) : Recorded
      (spans.foldl (fun known span =>
        known.insert span.writer (max ((known.lookup span.writer).getD 0) span.stop)) pending) o := by
  induction spans generalizing pending with
  | nil =>
      rcases h with old | ⟨_, hmem, _⟩
      · exact old
      · cases hmem
  | cons span spans ih =>
      apply ih
      rcases h with old | ⟨found, hmem, hfound⟩
      · exact Or.inl (recorded_insert_max span (Or.inl old))
      · rcases List.mem_cons.mp hmem with rfl | htail
        · exact Or.inl (recorded_insert_max found (Or.inr hfound))
        · exact Or.inr ⟨found, htail, hfound⟩

/-- Remembering a report forgets nothing and learns everything it reports as pending. -/
theorem recorded_rememberPending {report : MergeReport} (h : Recorded pending o ∨ Reported report.pending o) :
    Recorded (rememberPending pending report) o :=
  recorded_foldl h

/-- With no unresolved import, every operation the pending ends know of is held. -/
theorem held_of_recorded {s : BlockStore} {doc : LoroDoc} (resolved : s.hasUnresolvedImports doc = false)
    (known : Recorded s.pending o) : Held doc.applied o := by
  obtain ⟨stop, hstop, hlt⟩ := known
  have listed : (⟨o.writer, stop⟩ : Sigma fun _ : Writer => Nat) ∈ s.pending.entries :=
    AList.mem_lookup_iff.mp hstop
  have reached := List.any_eq_false.mp resolved _ listed
  have le : (stop : Int) ≤ reach doc.applied o.writer := by
    simpa [LoroDoc.get_version] using reached
  exact Nat.lt_of_lt_of_le hlt (Int.ofNat_le.mp le)

/-- Every operation the document has parked is known to the store's pending ends. -/
def PendingKnown (s : BlockStore) (doc : LoroDoc) : Prop :=
  ∀ o ∈ doc.parked, Recorded s.pending o

/-- An import whose report is recorded leaves no parked operation unknown. -/
theorem pendingKnown_takeOps {s s' : BlockStore} {doc : LoroDoc} (known : PendingKnown s doc)
    (ops : List SyncOp) (h : s'.pending = rememberPending s.pending (doc.reportOf ops)) :
    PendingKnown s' (doc.takeOps ops) := by
  intro o ho
  rw [h]
  apply recorded_rememberPending
  by_cases mem : o ∈ ops
  · exact Or.inr (reported_spansOf (List.mem_filter.mpr ⟨ho, decide_eq_true mem⟩))
  · exact Or.inl (known o ((LoroDoc.mem_of_takeOps_parked ho).resolve_right mem))

end Khor.Sync
