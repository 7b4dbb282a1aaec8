/-
Module: Khor.Sync.KeptReads
Purpose: A load that starts from what its process kept of an earlier read. A directory's listing with each file's length and
  time stands for what its blocks hold: where it is the kept one the kept snapshot answers, where it only gained blocks
  the read starts from that snapshot, and otherwise every block is read, once more after a block vanished. The
  directory may change between any two file steps of a load.
Trusted boundary: a listing with its files' lengths and times is read at one moment; loro's import, as `LoroDoc` states
  it; ledger, epoch and pen are left out, which both ways of reading treat alike, and so are directories that cannot be
  listed
Main exports: File, fingerprint, Kept, readBlocks, readOnce
-/
import Khor.Lib.SortedMap
import Khor.Sync.Store

namespace Khor.Sync.KeptReads

/-- A block file: what an import makes of its bytes, its length and modification time where the fingerprint can tell
  them, and whether reading it fails. -/
structure File where
  bytes : Bytes
  stamp : Option (Nat × Nat)
  unread : Bool

section Loads

variable {N : Type} [LinearOrder N]

/-- The block files of a directory by name. -/
abbrev Directory (N : Type) [LinearOrder N] := SortedMap N File

/-- Each block's name, length and modification time. -/
abbrev Fingerprint (N : Type) := List (N × Nat × Nat)

/-- A file that has no time, or whose name is no text, has no entry. -/
def fingerprint (dir : Directory N) : Fingerprint N :=
  dir.entries.filterMap fun e => e.2.stamp.map fun stamp => (e.1, stamp)

/-- One kept read: the blocks it was made of, the kind of document, the whole document as one snapshot, and the files
  that would not read. -/
structure Kept (N : Type) where
  fingerprint : Fingerprint N
  kind : Nat
  snapshot : Bytes
  broken : List N

/-- Where a read starts when part of the directory was kept. -/
structure Base (N : Type) where
  snapshot : Bytes
  names : Finset N
  broken : List N

/-- One pass over the block files. -/
structure Imported (N : Type) where
  doc : LoroDoc
  names : Finset N
  broken : List N
  pending : Pending
  vanished : Bool

/-- What a load returns of the copy and its store. -/
structure Loaded (N : Type) where
  doc : LoroDoc
  onDisk : SyncVersion
  held : Finset N
  broken : List N
  pending : Pending

/-- `has_unresolved_imports`. -/
def Loaded.hasUnresolvedImports (loaded : Loaded N) : Bool :=
  loaded.pending.entries.any fun e => decide (loaded.doc.version.get e.1 < (e.2 : Int))

/-- Read and merge one listed block: it may be gone by now. -/
def readBlock (dir : Directory N) (acc : Imported N) (name : N) : Imported N :=
  match dir.get name with
  | none => { acc with vanished := true }
  | some file =>
      if file.unread then { acc with broken := acc.broken ++ [name] }
      else
        match acc.doc.mergeReport file.bytes with
        | .error _ => { acc with broken := acc.broken ++ [name] }
        | .ok (report, doc) =>
            { acc with doc := doc, pending := rememberPending acc.pending report, names := insert name acc.names }

/-- Block after block, each at its own moment. -/
def readFrom (dirs : Nat → Directory N) : Nat → List N → Imported N → Imported N
  | _, [], acc => acc
  | t, name :: names, acc => readFrom dirs (t + 1) names (readBlock (dirs t) acc name)

/-- `read_blocks`: the listing at `t`, then every block that was not kept. With it comes the moment it ends. -/
def readBlocks (dirs : Nat → Directory N) (t : Nat) (doc : LoroDoc) (kept : Finset N) : Imported N × Nat :=
  let listed := (dirs t).keys.filter (· ∉ kept)
  (readFrom dirs (t + 1) listed { doc := doc, names := ∅, broken := [], pending := ∅, vanished := false },
    t + 1 + listed.length)

/-- Those of the blocks that did read. -/
def heldOf (names : Finset N) (broken : List N) : Finset N := names.filter fun n => n ∉ broken

/-- What a pass has made, onto what was kept. -/
def Imported.loaded (imported : Imported N) (held : Finset N) (broken : List N) : Loaded N :=
  { doc := imported.doc, onDisk := imported.doc.version, held := held ∪ imported.names
    broken := broken ++ imported.broken, pending := imported.pending }

/-- `read_once` from nothing kept. -/
def readBare (dirs : Nat → Directory N) (t : Nat) (peer : Writer) : Loaded N × Bool × Nat :=
  let (imported, ends) := readBlocks dirs t (.open peer) ∅
  (imported.loaded ∅ [], imported.vanished, ends)

/-- `read_once`: what is loaded, whether a listed block was gone, and the moment it ends. A snapshot that waits for
  anything is as good as none. -/
def readOnce (dirs : Nat → Directory N) (t : Nat) (peer : Writer) (base : Option (Base N)) :
    Loaded N × Bool × Nat :=
  match base with
  | none => readBare dirs t peer
  | some base =>
      match (LoroDoc.open peer).mergeReport base.snapshot with
      | .error _ => readBare dirs t peer
      | .ok (report, doc) =>
          if report.pending ≠ [] then readBare dirs t peer
          else
            let (imported, ends) := readBlocks dirs t doc base.names
            (imported.loaded (heldOf base.names base.broken) base.broken, imported.vanished, ends)

/-- `load_inner`: one more pass, from nothing kept, after a listed block had vanished. -/
def loadInner (dirs : Nat → Directory N) (t : Nat) (peer : Writer) (base : Option (Base N)) : Loaded N × Nat :=
  let (loaded, vanished, ends) := readOnce dirs t peer base
  if vanished then
    let (loaded, _, ends) := readOnce dirs ends peer none
    (loaded, ends)
  else (loaded, ends)

/-- `kept_copy`: a copy from what was kept, when it was kept from exactly `listing`. -/
def keptCopy (kind : Nat) (peer : Writer) (kept : Option (Kept N)) (listing : Fingerprint N) : Option (Loaded N) :=
  match kept with
  | none => none
  | some kept =>
      if kept.kind = kind ∧ kept.fingerprint = listing then
        match (LoroDoc.open peer).mergeReport kept.snapshot with
        | .error _ => none
        | .ok (report, doc) =>
            if report.pending ≠ [] then none
            else
              some
                { doc := doc, onDisk := doc.version, held := heldOf (listing.map Prod.fst).toFinset kept.broken
                  broken := kept.broken, pending := ∅ }
      else none

/-- What was kept, if every block it was made of is still listed as it was. -/
def baseOf (kind : Nat) (kept : Option (Kept N)) (before : Fingerprint N) : Option (Base N) :=
  match kept with
  | none => none
  | some kept =>
      if kept.kind = kind ∧ ∀ e ∈ kept.fingerprint, e ∈ before then
        some { snapshot := kept.snapshot, names := (kept.fingerprint.map Prod.fst).toFinset, broken := kept.broken }
      else none

/-- The first look of `load_cached`, before the gate: no more than the kept copy. -/
def look (dirs : Nat → Directory N) (t : Nat) (kind : Nat) (peer : Writer) (kept : Option (Kept N)) :
    Option (Loaded N) :=
  keptCopy kind peer kept (fingerprint (dirs t))

/-- `load_cached` once it holds the directory's gate: the copy, what is kept after it, and the moment it ends. -/
def readKeeping (dirs : Nat → Directory N) (t : Nat) (kind : Nat) (peer : Writer) (kept : Option (Kept N)) :
    Loaded N × Option (Kept N) × Nat :=
  let before := fingerprint (dirs t)
  match keptCopy kind peer kept before with
  | some hit => (hit, kept, t + 1)
  | none =>
      let (loaded, ends) := loadInner dirs (t + 1) peer (baseOf kind kept before)
      if before ≠ [] ∧ fingerprint (dirs ends) = before ∧ loaded.hasUnresolvedImports = false then
        (loaded,
          some { fingerprint := before, kind := kind, snapshot := loaded.doc.snapshot, broken := loaded.broken },
          ends + 1)
      else (loaded, kept, ends + 1)

/-! ### What a directory goes through -/

/-- A file stands under the name, with this length and time. -/
def Stands (dir : Directory N) (name : N) (stamp : Nat × Nat) : Prop :=
  ∃ file, dir.get name = some file ∧ file.stamp = some stamp

/-- What happens to a directory from one moment to the next: nothing; a block is written, as a flush, an absorb, a sync
  or a compaction writes one, that never stood there before; or a compaction deletes a block that stood there before
  its snapshot did. -/
inductive Change (dirs : Nat → Directory N) (t : Nat) : Prop where
  | still (same : dirs (t + 1) = dirs t)
  | written (name : N) (file : File) (now : dirs (t + 1) = (dirs t).put name file)
      (fresh : ∀ u ≤ t, ∀ stamp, file.stamp = some stamp → ¬ Stands (dirs u) name stamp)
  | deleted (name snap : N) (stamp snapStamp : Nat × Nat) (now : dirs (t + 1) = (dirs t).erase name) (u v : Nat)
      (old : Stands (dirs t) name stamp) (older : Stands (dirs u) name stamp) (before : u < v) (past : v ≤ t)
      (stood : Stands (dirs v) snap snapStamp) (first : ∀ w < v, ¬ Stands (dirs w) snap snapStamp)

/-- A directory's history: every file has its entry in the fingerprint, its name, length and time say what it holds
  and whether it reads, and it changes as blocks are written and compacted. -/
structure Lawful (dirs : Nat → Directory N) : Prop where
  stamped : ∀ t name file, (dirs t).get name = some file → ∃ stamp, file.stamp = some stamp
  immutable : ∀ t u name file file', (dirs t).get name = some file → (dirs u).get name = some file' →
    file.stamp = file'.stamp → file = file'
  changes : ∀ t, Change dirs t

/-- All operations that stand in a readable block. -/
def operations (dir : Directory N) : Set SyncOp :=
  { o | ∃ name file ops, dir.get name = some file ∧ file.unread = false ∧ file.bytes = some ops ∧ o ∈ ops }

/-- All that ever stood in one. -/
def everOf (dirs : Nat → Directory N) : Set SyncOp := { o | ∃ t, o ∈ operations (dirs t) }

/-- What a process may have kept at a moment: nothing at first, then what its loads keep, one at a time behind the gate.
  A rebuilt pile is forgotten. -/
inductive Reached (dirs : Nat → Directory N) : Nat → Option (Kept N) → Prop where
  | start (t : Nat) : Reached dirs t none
  | wait {t u : Nat} {kept : Option (Kept N)} : Reached dirs t kept → t ≤ u → Reached dirs u kept
  | load {t : Nat} {kept : Option (Kept N)} (kind : Nat) (peer : Writer) : Reached dirs t kept →
      Reached dirs (readKeeping dirs t kind peer kept).2.2 (readKeeping dirs t kind peer kept).2.1
  | forget {t : Nat} {kept : Option (Kept N)} : Reached dirs t kept → Reached dirs t none

/-- Two loads that come to the same: the same operations applied and waiting, the same version on disk, the same blocks
  held and broken, and the same word on unresolved imports. -/
structure Agrees (a b : Loaded N) : Prop where
  peer : a.doc.peer = b.doc.peer
  applied : ∀ o, o ∈ a.doc.applied ↔ o ∈ b.doc.applied
  waiting : ∀ o, o ∈ a.doc.parked ↔ o ∈ b.doc.parked
  onDisk : a.onDisk.Same b.onDisk
  held : a.held = b.held
  broken : a.broken.Perm b.broken
  unresolved : a.hasUnresolvedImports = b.hasUnresolvedImports

end Loads

end Khor.Sync.KeptReads
