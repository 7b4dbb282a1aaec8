/-
Module: Khor.Sync.Plan
Purpose: How two sides align over files. A plan is made of the blocks present on each side and of those ever merged there;
  its moves are carried out one by one, in any order, while either side compacts between them. A side is a store with its
  ledger, or a node that runs nothing and only keeps files.
Trusted boundary: a block's bytes travel as they were when the plan was made; loro's import, as `LoroDoc` states it
Main exports: Side, plan, Node, Node.side, World.step
-/
import Khor.Lib.Runs
import Khor.Sync.Load

namespace Khor.Sync.Planned

/-! ### The plan -/

/-- One side's books: the blocks in the directory, and the blocks ever merged. -/
structure Side where
  present : Finset BlockName
  merged : Finset BlockName

structure Plan where
  pull : Finset BlockName
  push : Finset BlockName

def Plan.isEmpty (p : Plan) : Prop := p.pull = ∅ ∧ p.push = ∅

/-- Pull what is present there and was never merged here; push what is present here, and neither present nor merged
  there. -/
def plan (mine theirs : Side) : Plan :=
  { pull := theirs.present \ mine.merged
    push := mine.present.filter fun n => n ∉ theirs.present ∧ n ∉ theirs.merged }

/-! ### Two sides -/

abbrev Blocks := AList (fun _ : BlockName => Bytes)

inductive Node where
  /-- A device's store, open with its document. -/
  | store (books : BlockStore) (doc : LoroDoc)
  /-- A directory on a node that runs nothing: it merges nothing. -/
  | dumb (blocks : Blocks)

def Node.blocks : Node → Blocks
  | .store books _ => books.dir.blocks
  | .dumb blocks => blocks

/-- The blocks ever merged; none on a node that keeps no ledger. -/
def Node.merged : Node → Finset BlockName
  | .store books _ => books.ledger
  | .dumb _ => ∅

/-- `BlockStore::side`, and what a listing of a dumb node's directory makes. -/
def Node.side (node : Node) : Side :=
  { present := node.blocks.keys.toFinset, merged := node.merged }

/-- Take in one block: absorbed, or with `raw` only written into the directory. A dumb node can only write it. -/
def Node.take (io : Io) (raw : Bool) (name : BlockName) (bytes : Bytes) : Node → Bool × Node
  | .store books doc =>
      if raw then (true, .store (books.writeBlock name bytes) doc)
      else
        match books.absorb io doc name bytes with
        | (.ok (), doc, books) => (true, .store books doc)
        | (.error _, doc, books) => (false, .store books doc)
  | .dumb blocks => (true, .dumb (blocks.insert name bytes))

/-- A store compacts; a dumb node never does. -/
def Node.compact (io : Io) : Node → Node
  | .store books doc => .store (books.compact io doc).2 doc
  | .dumb blocks => .dumb blocks

inductive Who where
  | mine
  | theirs

/-- The two sides while a plan is carried out. -/
structure World where
  mine : Node
  theirs : Node
  /-- The moves made so far. -/
  pulled : Finset BlockName
  pushed : Finset BlockName
  /-- The snapshots compactions have written on either side since the plan was made. -/
  snapsHere : Finset BlockName
  snapsThere : Finset BlockName

def World.plan (w : World) : Plan := Planned.plan w.mine.side w.theirs.side

/-- Two sides before a plan. -/
def begin_ (mine theirs : Node) : World :=
  { mine := mine, theirs := theirs, pulled := ∅, pushed := ∅, snapsHere := ∅, snapsThere := ∅ }

inductive Event where
  /-- A block of the plan is pulled, and absorbed here. -/
  | pull (name : BlockName) (io : Io)
  /-- One is pushed, and absorbed or only written there. -/
  | push (name : BlockName) (io : Io) (raw : Bool)
  | compact (who : Who) (io : Io)

/-- Blocks that were not there before. -/
def newNames (before after : Blocks) : Finset BlockName := after.keys.toFinset \ before.keys.toFinset

/-- One move of the plan that `start` made, or one compaction. -/
def World.step (start w : World) : Event → World
  | .pull name io =>
      match start.theirs.blocks.lookup name with
      | none => w
      | some bytes =>
          let (ok, node) := w.mine.take io false name bytes
          { w with mine := node, pulled := if ok then insert name w.pulled else w.pulled }
  | .push name io raw =>
      match start.mine.blocks.lookup name with
      | none => w
      | some bytes =>
          let (ok, node) := w.theirs.take io raw name bytes
          { w with theirs := node, pushed := if ok then insert name w.pushed else w.pushed }
  | .compact .mine io =>
      let node := w.mine.compact io
      { w with mine := node, snapsHere := w.snapsHere ∪ newNames w.mine.blocks node.blocks }
  | .compact .theirs io =>
      let node := w.theirs.compact io
      { w with theirs := node, snapsThere := w.snapsThere ∪ newNames w.theirs.blocks node.blocks }

/-- The moves are the plan's. -/
def World.May (start _w : World) : Event → Prop
  | .pull name _ => name ∈ start.plan.pull
  | .push name _ _ => name ∈ start.plan.push
  | .compact _ _ => True

/-- The plan has been carried out in full. -/
def World.Full (start w : World) : Prop := start.plan.pull ⊆ w.pulled ∧ start.plan.push ⊆ w.pushed

/-- What a reader of the blocks reads: the operations applied by a load of them all. -/
def Readable (blocks : Blocks) (o : SyncOp) : Prop :=
  o ∈ (readBlocks (fun _ => false) (LoroDoc.open 0) blocks.entries).doc.applied

end Khor.Sync.Planned
