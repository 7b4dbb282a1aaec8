/-
Module: Khor.Sync.SharedDir
Purpose: Any number of open copies of one document's directory. Each takes its file steps one at a time,
  in any order with the others': a load lists the directory and reads its files one by one, or starts
  from what its process kept of an earlier read; a flush and a compaction pick a number, write a block,
  delete blocks one by one and save the ledger. Any step may fail, and a copy may die after any of them.
Trusted boundary: each file step lands whole or not at all
Main exports: Phase, Copy, Copy.step, step, Apart
-/
import Khor.Lib.Runs
import Khor.Sync.Load

namespace Khor.Sync.SharedDir

open Khor.Sync.BlockStore

/-! ### One copy -/

/-- What a process keeps of a whole read: the listing it was made from, the document as one snapshot,
and the blocks that would not read. -/
structure Kept where
  fingerprint : Finset BlockName
  snapshot : Bytes
  broken : List BlockName

/-- How far a copy is: in its load, between calls, or inside a flush or a compaction. -/
inductive Phase where
  /-- The lease is taken and nothing is listed yet. -/
  | leased
  /-- The listing `load_cached` took; `again` on the one further pass after a vanished block. -/
  | listed (before : Finset BlockName) (again : Bool)
  /-- A pass has read the ledger and merged what was kept, `kept` by name. -/
  | begun (before : Finset BlockName) (again : Bool) (kept : Finset BlockName)
  /-- A pass has `left` to read. -/
  | reading (before : Finset BlockName) (again : Bool) (left : List BlockName)
      (vanished grew : Bool)
  /-- Loaded, and what was read not kept yet. -/
  | loaded (before : Finset BlockName)
  | idle
  /-- A block is to be written, with `old` to delete after it. -/
  | due (kind : BlockKind) (old : List BlockName) (bytes : Bytes)
  | numbered (old : List BlockName) (name : BlockName) (bytes : Bytes)
  /-- The block `name` is written and `left` is still to be deleted. -/
  | deleting (left : List BlockName) (name : BlockName)

/-- One open copy. The `dir` in its store is the one it saw at its last step. -/
structure Copy where
  proc : Nat
  store : BlockStore
  doc : LoroDoc
  broken : List BlockName
  phase : Phase

/-- The store a pass starts from. -/
def passStore (dir : Dir) (held : Finset BlockName) : BlockStore :=
  { dir := dir, onDisk := ∅, ledger := dir.merged, held := held, epoch := readEpoch dir,
    stamp := false, pen := none, retired := none, pending := ∅ }

/-- A copy that has its name and has read nothing. -/
def Copy.taken (dir : Dir) (proc : Nat) (name : Writer) : Copy :=
  { proc := proc, store := passStore dir ∅, doc := .open name, broken := [], phase := .leased }

/-- What one step of a copy does: to the directory, to the copy, a block it wrote, and what its
process keeps. -/
structure Effect where
  dir : Dir
  copy : Copy
  wrote : Option (BlockName × Bytes) := none
  kept : Option Kept := none

/-- A step that touches the copy alone. -/
def Effect.quiet (dir : Dir) (copy : Copy) : Effect := { dir := dir, copy := copy }

/-- The copy's store over the directory as it is now. -/
def Copy.here (copy : Copy) (dir : Dir) : BlockStore := { copy.store with dir := dir }

namespace Copy

/-! #### The load -/

/-- The listing, after the lease. -/
def list (dir : Dir) (copy : Copy) : Option Effect :=
  match copy.phase with
  | .leased => some (.quiet dir { copy with phase := .listed dir.blocks.keys.toFinset false })
  | _ => none

/-- The names of a kept read that are held: all but those that would not read. -/
def keptHeld (kept : Kept) : Finset BlockName :=
  kept.fingerprint.filter fun n => n ∉ kept.broken

/-- `kept_copy`: a copy from what was kept, when it was kept from exactly this listing. -/
def hit (dir : Dir) (kept : Option Kept) (copy : Copy) : Option Effect :=
  match copy.phase, kept with
  | .listed before false, some kept =>
      if kept.fingerprint = before then
        match (LoroDoc.open copy.doc.peer).mergeReport kept.snapshot with
        | .error _ => none
        | .ok (report, doc) =>
            if report.pending = [] then
              some (.quiet dir { copy with
                  store := { passStore dir (keptHeld kept) with onDisk := doc.version }
                  doc := doc
                  broken := kept.broken
                  phase := .idle })
            else none
      else none
  | _, _ => none

/-- The start of a pass that has nothing kept. -/
def beginBare (dir : Dir) (before : Finset BlockName) (again : Bool) (copy : Copy) : Copy :=
  { copy with
    store := passStore dir ∅, doc := .open copy.doc.peer, broken := []
    phase := .begun before again ∅ }

/-- `read_once` before its listing: the ledger read and, with `base`, what was kept merged, if every
block it was made of is still listed. -/
def beginPass (dir : Dir) (kept : Option Kept) (base : Bool) (copy : Copy) : Option Effect :=
  match copy.phase with
  | .listed before again =>
      match kept, base, again with
      | some kept, true, false =>
          if kept.fingerprint ⊆ before then
            match (LoroDoc.open copy.doc.peer).mergeReport kept.snapshot with
            | .error _ => some (.quiet dir (copy.beginBare dir before again))
            | .ok (report, doc) =>
                if report.pending = [] then
                  some (.quiet dir { copy with
                      store := passStore dir (keptHeld kept)
                      doc := doc
                      broken := kept.broken
                      phase := .begun before again kept.fingerprint })
                else some (.quiet dir (copy.beginBare dir before again))
          else none
      | _, _, _ => some (.quiet dir (copy.beginBare dir before again))
  | _ => none

/-- `read_blocks`, the listing: every block that was not kept. -/
def enlist (dir : Dir) (copy : Copy) : Option Effect :=
  match copy.phase with
  | .begun before again kept =>
      some (.quiet dir { copy with
          phase := .reading before again (dir.blocks.keys.filter (· ∉ kept)) false false })
  | _ => none

/-- `read_blocks`, one block: gone, unreadable, refused, or merged. -/
def read (dir : Dir) (unread : Bool) (copy : Copy) : Option Effect :=
  match copy.phase with
  | .reading before again (name :: left) vanished grew =>
      let skipped : Effect := .quiet dir
        { copy with
          broken := copy.broken ++ [name], phase := .reading before again left vanished grew }
      match dir.blocks.lookup name with
      | none =>
          some (.quiet dir { copy with phase := .reading before again left true grew })
      | some bytes =>
          if unread then some skipped
          else
            match copy.doc.mergeReport bytes with
            | .error _ => some skipped
            | .ok (report, doc) =>
                some (.quiet dir { copy with
                    store := (copy.store.recordImport report).remember name
                    doc := doc
                    phase :=
                      .reading before again left vanished (grew || decide (name ∉ copy.store.ledger)) })
  | _ => none

/-- The end of a pass: the ledger saved if the pass learned a name, and one more pass if a block had
vanished. -/
def learn (dir : Dir) (copy : Copy) : Option Effect :=
  match copy.phase with
  | .reading before again [] vanished grew =>
      let store := { copy.here dir with onDisk := copy.doc.version, epoch := readEpoch dir }
      let store := if dir.isDir ∧ grew then store.saveLedger else store
      some (.quiet store.dir { copy with
          store := store
          phase := if vanished ∧ ¬ again then .listed before true else .loaded before })
  | _ => none

/-- The end of `load_cached`: what was read is kept if the listing, and with `same` each file's length
and time, is still what it was. -/
def keep (dir : Dir) (same : Bool) (copy : Copy) : Option Effect :=
  match copy.phase with
  | .loaded before =>
      if before ≠ ∅ ∧ same ∧ dir.blocks.keys.toFinset = before ∧
          copy.store.hasUnresolvedImports copy.doc = false then
        some
          { dir := dir
            copy := { copy with phase := .idle }
            kept := some
              { fingerprint := before, snapshot := copy.doc.snapshot, broken := copy.broken } }
      else some (.quiet dir { copy with phase := .idle })
  | _ => none

/-! #### Between calls -/

/-- A local edit. -/
def edit (dir : Dir) (deps : List (Writer × Nat)) (body : Nat) (copy : Copy) : Option Effect :=
  match copy.phase with
  | .idle => some (.quiet dir { copy with doc := copy.doc.commit deps body })
  | _ => none

/-- An import of what came over the wire, registered as `record_import` asks. -/
def merge (dir : Dir) (bytes : Bytes) (copy : Copy) : Option Effect :=
  match copy.phase with
  | .idle =>
      match copy.doc.mergeReport bytes with
      | .error _ => none
      | .ok (report, doc) =>
          some (.quiet dir { copy with doc := doc, store := copy.store.recordImport report })
  | _ => none

/-! #### Flush and compaction -/

/-- `flush` up to the number: nothing when nothing is new, or when the directory cannot be made. -/
def flush (dir : Dir) (io : Io) (copy : Copy) : Option Effect :=
  match copy.phase with
  | .idle =>
      if copy.doc.version.Same copy.store.onDisk then none
      else
        match (copy.here dir).makeDir io with
        | (.error _, store) => some (.quiet store.dir { copy with store := store })
        | (.ok (), store) =>
            some (.quiet store.dir { copy with
                store := store
                phase := .due .u [] (copy.doc.changesSince copy.store.onDisk) })
  | _ => none

/-- `compact` up to the number: refused with unresolved imports, and the listing of what it holds. -/
def compact (dir : Dir) (io : Io) (copy : Copy) : Option Effect :=
  match copy.phase with
  | .idle =>
      if copy.store.hasUnresolvedImports copy.doc then none
      else
        match (copy.here dir).makeDir io with
        | (.error _, store) => some (.quiet store.dir { copy with store := store })
        | (.ok (), store) =>
            some (.quiet store.dir { copy with
                store := store
                phase := .due .snap (store.dir.blocks.keys.filter (· ∈ store.held))
                  copy.doc.snapshot })
  | _ => none

/-- `next_number` in a build whose additions wrap. -/
def numberIn (dir : Dir) (kind : BlockKind) (copy : Copy) : Nat :=
  (dir.blocks.keys.toFinset ∪ copy.store.ledger).sup (numberAfter kind copy.doc.peerId) % 2 ^ 32

/-- Pick the block's number. -/
def number (dir : Dir) (copy : Copy) : Option Effect :=
  match copy.phase with
  | .due kind old bytes =>
      let name := BlockName.block kind copy.doc.peerId (copy.numberIn dir kind)
      some (.quiet dir { copy with phase := .numbered (old.filter (· ≠ name)) name bytes })
  | _ => none

/-- Write the block. -/
def write (dir : Dir) (copy : Copy) : Option Effect :=
  match copy.phase with
  | .numbered old name bytes =>
      some
        { dir := { dir with blocks := dir.blocks.insert name bytes }
          copy := { copy with phase := .deleting old name }
          wrote := some (name, bytes) }
  | _ => none

/-- Delete the next of the old blocks; a file that will not go stays, and is held no longer. -/
def delete (dir : Dir) (stuck : Bool) (copy : Copy) : Option Effect :=
  match copy.phase with
  | .deleting (old :: left) name =>
      let store := (copy.here dir).deleteBlock { stuck := fun _ => stuck } old
      some (.quiet store.dir { copy with store := store, phase := .deleting left name })
  | _ => none

/-- The new block remembered, the ledger saved, and the live version counted as on disk. -/
def save (dir : Dir) (copy : Copy) : Option Effect :=
  match copy.phase with
  | .deleting [] name =>
      let store := ((copy.here dir).remember name).saveLedger
      some (.quiet store.dir { copy with store := { store with onDisk := copy.doc.version }, phase := .idle })
  | _ => none

/-- The write or the save fails and the call returns its error. -/
def fail (dir : Dir) (copy : Copy) : Option Effect :=
  match copy.phase with
  | .numbered _ _ _ => some (.quiet dir { copy with phase := .idle })
  | .deleting [] name =>
      some (.quiet dir { copy with store := copy.store.remember name, phase := .idle })
  | _ => none

end Copy

/-- What a copy can do next. -/
inductive Act where
  | list
  | hit
  | beginPass (base : Bool)
  | enlist
  | read (unread : Bool)
  | learn
  | keep (same : Bool)
  | edit (deps : List (Writer × Nat)) (body : Nat)
  | merge (bytes : Bytes)
  | flush (io : Io)
  | compact (io : Io)
  | number
  | write
  | delete (stuck : Bool)
  | save
  | fail

/-- One step of a copy, where it is able to take it. -/
def Copy.step (dir : Dir) (kept : Option Kept) (copy : Copy) : Act → Option Effect
  | .list => copy.list dir
  | .hit => copy.hit dir kept
  | .beginPass base => copy.beginPass dir kept base
  | .enlist => copy.enlist dir
  | .read unread => copy.read dir unread
  | .learn => copy.learn dir
  | .keep same => copy.keep dir same
  | .edit deps body => copy.edit dir deps body
  | .merge bytes => copy.merge dir bytes
  | .flush io => copy.flush dir io
  | .compact io => copy.compact dir io
  | .number => copy.number dir
  | .write => copy.write dir
  | .delete stuck => copy.delete dir stuck
  | .save => copy.save dir
  | .fail => copy.fail dir

/-! ### The directory and its copies -/

/-- A directory, its open copies, what each process keeps, and every block written so far in order. -/
structure World where
  dir : Dir
  copies : AList (fun _ : Nat => Copy)
  kept : AList (fun _ : Nat => Kept)
  written : List (BlockName × Bytes)

/-- A directory with its blocks, and nobody there. -/
def start (dir : Dir) : World :=
  { dir := dir, copies := ∅, kept := ∅
    written := dir.blocks.entries.map fun e => (e.1, e.2) }

inductive Event where
  /-- A load begins: copy `c`, in process `proc`, is lent a name. -/
  | take (c proc : Nat) (name : Writer)
  | act (c : Nat) (a : Act)
  /-- A copy is closed, or dies. -/
  | close (c : Nat)

/-- The world after one step of copy `c`. -/
def World.after (s : World) (c : Nat) (e : Effect) : World :=
  { dir := e.dir
    copies := s.copies.insert c e.copy
    kept := match e.kept with
      | none => s.kept
      | some kept => s.kept.insert e.copy.proc kept
    written := s.written ++ e.wrote.toList }

def step (s : World) : Event → World
  | .take c proc name =>
      if c ∈ s.copies then s
      else { s with copies := s.copies.insert c (.taken s.dir proc name) }
  | .act c a =>
      match s.copies.lookup c with
      | none => s
      | some copy =>
          match copy.step s.dir (s.kept.lookup copy.proc) a with
          | none => s
          | some e => s.after c e
  | .close c => { s with copies := s.copies.erase c }

/-! ### Which steps are permitted -/

/-- Copies open at one time hold different names. -/
def Apart (s : World) : Event → Prop
  | .take _ _ name => ∀ e ∈ s.copies.entries, e.2.doc.peer ≠ name
  | _ => True

/-- Of the names in the ledger file, the copy's memory has every one whose block is gone. -/
def Abreast (dir : Dir) (copy : Copy) : Prop :=
  ∀ n ∈ dir.merged, n ∈ dir.blocks ∨ n ∈ copy.store.ledger

/-- So for the names that a number of this kind is picked past. -/
def AbreastOwn (dir : Dir) (copy : Copy) (kind : BlockKind) : Prop :=
  ∀ n ∈ dir.merged, numberAfter kind copy.doc.peer n ≠ 0 → n ∈ dir.blocks ∨ n ∈ copy.store.ledger

/-- A step that takes no name's last record: a number is picked by a copy that is abreast of its own
lines of the ledger file, and the ledger saved by one that is abreast of all; a block is deleted once
the ledger file names it; and numbers are not used up. -/
def Copy.keepsNames (dir : Dir) (copy : Copy) (a : Act) : Prop :=
  match a, copy.phase with
  | .number, .due kind _ _ =>
      AbreastOwn dir copy kind ∧ ((copy.here dir).nextNumber kind copy.doc.peerId).isSome
  | .learn, .reading _ _ [] _ true => Abreast dir copy
  | .delete _, .deleting (old :: _) _ => old ∈ dir.merged
  | .save, .deleting [] _ => Abreast dir copy
  | _, _ => True

/-- Every step of a copy takes no name's last record. -/
def KeepsNames (s : World) : Event → Prop
  | .act c a =>
      match s.copies.lookup c with
      | none => True
      | some copy => copy.keepsNames s.dir a
  | _ => True

/-- Names are apart, and no name loses its last record. -/
def Careful (s : World) (e : Event) : Prop := Apart s e ∧ KeepsNames s e

instance (s : World) (e : Event) : Decidable (Apart s e) :=
  match e with
  | .take _ _ _ => inferInstanceAs (Decidable (∀ e ∈ s.copies.entries, _))
  | .act _ _ => inferInstanceAs (Decidable True)
  | .close _ => inferInstanceAs (Decidable True)

instance (dir : Dir) (copy : Copy) : Decidable (Abreast dir copy) :=
  inferInstanceAs (Decidable (∀ n ∈ dir.merged, _))

instance (dir : Dir) (copy : Copy) (kind : BlockKind) : Decidable (AbreastOwn dir copy kind) :=
  inferInstanceAs (Decidable (∀ n ∈ dir.merged, _))

instance (dir : Dir) (copy : Copy) (a : Act) : Decidable (copy.keepsNames dir a) := by
  unfold Copy.keepsNames
  split <;> infer_instance

instance (s : World) (e : Event) : Decidable (KeepsNames s e) :=
  match e with
  | .take _ _ _ => inferInstanceAs (Decidable True)
  | .act c a =>
      match h : s.copies.lookup c with
      | none => isTrue (by simp [KeepsNames, h])
      | some copy => decidable_of_iff (copy.keepsNames s.dir a) (by simp [KeepsNames, h])
  | .close _ => inferInstanceAs (Decidable True)

instance (s : World) (e : Event) : Decidable (Careful s e) :=
  inferInstanceAs (Decidable (_ ∧ _))

end Khor.Sync.SharedDir
