/-
Module: Khor.Sync.PlanRuns
Purpose: Carrying out a plan brings both sides together. A store just loaded is in good order, and its ledger tells the
  truth through every move and every compaction: what it lists is in a block on disk, and no operation on disk is lost.
  A plan carried out in full, in any order, leaves nothing to move but the snapshots written meanwhile, and what either
  side could read both can.
Trusted boundary: none
Main exports: Books, Ready, Inv.step, plan_brings_together, dumb_pulls_again
-/
import Khor.Sync.Plan

namespace Khor.Sync.Planned

open Khor.Sync.BlockStore

/-! ### Compaction, block by block -/

/-- Deleting blocks takes them out of what is held, and leaves no file that was not there. -/
theorem foldl_deleteBlock_books {io : Io} (names : List BlockName) (s : BlockStore) :
    let s' := names.foldl (deleteBlock io) s
    s'.ledger = s.ledger ∧ s'.pending = s.pending ∧ (∀ n ∈ s'.held, n ∈ s.held ∧ n ∉ names) ∧
      ∀ n b, s'.dir.blocks.lookup n = some b → s.dir.blocks.lookup n = some b := by
  induction names generalizing s with
  | nil => exact ⟨rfl, rfl, fun n mem => ⟨mem, List.not_mem_nil⟩, fun _ _ there => there⟩
  | cons gone names ih =>
      obtain ⟨ledger, pending, held, blocks⟩ := ih (deleteBlock io s gone)
      refine ⟨ledger, pending, fun n mem => ?_, fun n b there => ?_⟩
      · obtain ⟨still, rest⟩ := held n mem
        obtain ⟨other, before⟩ := Finset.mem_erase.mp still
        exact ⟨before, List.not_mem_cons_of_ne_of_not_mem other rest⟩
      · have there := blocks n b there
        unfold deleteBlock at there
        dsimp only at there
        split at there
        · exact there
        · by_cases same : n = gone
          · subst same
            rw [AList.lookup_erase] at there
            cases there
          · rwa [AList.lookup_erase_ne same] at there

/-- A snapshot `path` of the document has been written, and blocks that were held may be gone. -/
structure Compacted (doc : LoroDoc) (s s' : BlockStore) (path : BlockName) : Prop where
  name : ∃ seq, path = .block .snap doc.peer seq
  free : path ∉ s.dir.blocks ∧ path ∉ s.ledger
  resolved : s.hasUnresolvedImports doc = false
  snapshot : s'.dir.blocks.lookup path = some doc.snapshot
  old : ∀ n b, n ≠ path → s'.dir.blocks.lookup n = some b → s.dir.blocks.lookup n = some b
  kept : ∀ n, n ≠ path → n ∉ s.held → s'.dir.blocks.lookup n = s.dir.blocks.lookup n
  ledger : s'.ledger = insert path s.ledger
  held : ∀ n ∈ s'.held, n = path ∨ n ∈ s.held
  pending : s'.pending = s.pending

/-- The snapshot written, and of the blocks held before as many deleted as would go. -/
theorem Compacted.of_deleted {io : Io} {doc : LoroDoc} {s s₁ : BlockStore} {seq : Nat} (books : SameBooks s s₁)
    (resolved : s.hasUnresolvedImports doc = false)
    (free : BlockName.block .snap doc.peer seq ∉ s.dir.blocks ∧ BlockName.block .snap doc.peer seq ∉ s.ledger)
    {names : List BlockName} (left : BlockName.block .snap doc.peer seq ∉ names) (mine : ∀ n ∈ names, n ∈ s.held) :
    Compacted doc s
      ((names.foldl (deleteBlock io) (s₁.writeBlock (.block .snap doc.peer seq) doc.snapshot)).remember
        (.block .snap doc.peer seq))
      (.block .snap doc.peer seq) := by
  obtain ⟨ledger, pending, held, blocks⟩ := @foldl_deleteBlock_books io names
    (s₁.writeBlock (.block .snap doc.peer seq) doc.snapshot)
  have untouched := fun n notIn => @lookup_foldl_deleteBlock io names n notIn
    (s₁.writeBlock (.block .snap doc.peer seq) doc.snapshot)
  have written : ∀ n, n ≠ BlockName.block .snap doc.peer seq →
      (s₁.writeBlock (.block .snap doc.peer seq) doc.snapshot).dir.blocks.lookup n = s.dir.blocks.lookup n := by
    intro n other
    rw [← books.blocks]
    exact AList.lookup_insert_ne other
  refine ⟨⟨seq, rfl⟩, free, resolved, ?_, fun n b other there => ?_, fun n other notHeld => ?_, ?_, fun n mem => ?_, ?_⟩
  · exact (untouched _ left).trans (AList.lookup_insert _)
  · rw [← written n other]
    exact blocks n b there
  · rw [← written n other]
    exact untouched n fun mem => notHeld (mine n mem)
  · exact congrArg (insert _) (ledger.trans books.ledger)
  · obtain rfl | before := Finset.mem_insert.mp mem
    · exact .inl rfl
    · exact .inr (books.held ▸ (held n before).1)
  · exact pending.trans books.pending

variable {io : Io} {writer : Writer}

/-- A compaction changes no block, or writes a snapshot. -/
theorem compact_books {doc : LoroDoc} {s s' : BlockStore} {r : Except String BlockName}
    (ran : s.compact io doc = (r, s')) : SameBooks s s' ∨ ∃ path, Compacted doc s s' path := by
  unfold BlockStore.compact at ran
  split at ran
  · cases ran
    exact .inl (.refl s)
  · rename_i resolved
    cases made : s.makeDir io with
    | mk result s₁ =>
        have books := makeDir_books made
        rw [made] at ran
        cases result with
        | error why =>
            cases ran
            exact .inl books
        | ok _ =>
            simp only at ran
            cases next : s₁.nextNumber .snap doc.peerId with
            | none =>
                rw [next] at ran
                cases ran
                exact .inl books
            | some seq =>
                rw [next] at ran
                simp only at ran
                split at ran
                · cases ran
                  exact .inl books
                · have free_disk := notMem_of_nextNumber next
                  have free_ledger : BlockName.block .snap doc.peer seq ∉ s₁.ledger :=
                    fun used => Nat.lt_irrefl _ (lt_of_nextNumber next (.inr used))
                  rw [books.blocks] at free_disk
                  rw [books.ledger] at free_ledger
                  have compacted := @Compacted.of_deleted io doc s s₁ seq books (by simpa using resolved)
                    ⟨free_disk, free_ledger⟩
                    ((s₁.dir.blocks.keys.filter (· ∈ s₁.held)).filter (· ≠ BlockName.block .snap doc.peer seq))
                    (by simp) (fun n mem => by
                      have held := (List.mem_filter.mp (List.mem_filter.mp mem).1).2
                      exact books.held ▸ of_decide_eq_true held)
                  right
                  refine ⟨.block .snap doc.peer seq, ?_⟩
                  obtain ⟨_, _, rfl⟩ | ⟨_, rfl⟩ := settleLedger_cases ran
                  · exact compacted
                  · exact { compacted with }

/-! ### A store whose ledger tells the truth -/

/-- The operations in a side's block files. -/
def operations (blocks : Blocks) : Set SyncOp :=
  { o | ∃ name ops, blocks.lookup name = some (some ops) ∧ o ∈ ops }

/-- What is known of the blocks under the names in use when the plan was made: what stands in them, and the operations
  there are. -/
structure Setting where
  content : BlockName → Bytes
  names : Set BlockName
  ops : Set SyncOp

/-- A block's bytes carry operations of the setting alone. -/
def Setting.Carries (k : Setting) (bytes : Bytes) : Prop := ∀ ops, bytes = some ops → ∀ o ∈ ops, o ∈ k.ops

/-- These operations are in the block: it stands there, or stood there when the plan was made. -/
def Block (k : Setting) (s : BlockStore) (n : BlockName) (ops : List SyncOp) : Prop :=
  s.dir.blocks.lookup n = some (some ops) ∨ (n ∈ k.names ∧ k.content n = some ops)

/-- An open store in good order: what it holds it has merged, and what its ledger lists is in a block on disk. -/
structure Books (k : Setting) (s : BlockStore) (doc : LoroDoc) : Prop where
  listed : ∀ n ∈ s.held, n ∈ s.ledger
  merged : ∀ n ∈ s.held, ∀ ops, Block k s n ops → ∀ o ∈ ops, Held doc.applied o ∨ o ∈ doc.parked
  known : PendingKnown s doc
  truthful : ∀ n ∈ s.ledger, n ∈ k.names → ∀ ops, k.content n = some ops → ∀ o ∈ ops, o ∈ operations s.dir.blocks
  same : ∀ n ∈ k.names, ∀ b, s.dir.blocks.lookup n = some b → b = k.content n
  within : ∀ o, o ∈ operations s.dir.blocks ∨ o ∈ doc.applied ∨ o ∈ doc.parked → o ∈ k.ops
  /-- Blocks of its own name are no news to its ledger. -/
  own : ∀ kind seq, .block kind doc.peer seq ∈ k.names → .block kind doc.peer seq ∈ s.ledger

section Store

variable {k : Setting} {s s' : BlockStore} {doc : LoroDoc}

variable {name path : BlockName}

theorem operations_insert {blocks : Blocks} {bytes : Bytes} {o : SyncOp}
    (mem : o ∈ operations (blocks.insert name bytes)) :
    o ∈ operations blocks ∨ ∃ ops, bytes = some ops ∧ o ∈ ops := by
  obtain ⟨n, ops, there, mem⟩ := mem
  by_cases same : n = name
  · subst same
    rw [AList.lookup_insert, Option.some.injEq] at there
    exact .inr ⟨ops, there, mem⟩
  · rw [AList.lookup_insert_ne same] at there
    exact .inl ⟨n, ops, there, mem⟩

/-- Writing a block of the setting, which stood there as it is or not at all, loses no operation. -/
theorem operations_grow {blocks : Blocks} {bytes : Bytes} (same : ∀ b, blocks.lookup name = some b → b = bytes) :
    operations blocks ⊆ operations (blocks.insert name bytes) := by
  rintro o ⟨n, ops, there, mem⟩
  by_cases is : n = name
  · subst is
    have ops_same := same _ there
    exact ⟨n, ops, by rw [AList.lookup_insert, ops_same], mem⟩
  · exact ⟨n, ops, by rw [AList.lookup_insert_ne is]; exact there, mem⟩

section

variable (books : Books k s doc)
include books

/-- Only the books matter, and what is pending. -/
theorem Books.of_same (same : SameBooks s s') : Books k s' doc := by
  refine ⟨?_, ?_, ?_, ?_, ?_, ?_, ?_⟩
  · rw [same.held, same.ledger]
    exact books.listed
  · unfold Block
    rw [same.held, same.blocks]
    exact books.merged
  · unfold PendingKnown
    rw [same.pending]
    exact books.known
  · rw [same.ledger, same.blocks]
    exact books.truthful
  · rw [same.blocks]
    exact books.same
  · rw [same.blocks]
    exact books.within
  · rw [same.ledger]
    exact books.own

/-- An import of a block's operations, its report recorded. -/
theorem Books.takeOps {ops : List SyncOp} (carries : ∀ o ∈ ops, o ∈ k.ops) :
    Books k (s.recordImport (doc.reportOf ops)) (doc.takeOps ops) where
  listed := books.listed
  merged := by
    intro n mem blockOps there o inBlock
    obtain held | parked := books.merged n mem blockOps there o inBlock
    · exact .inl (Nat.lt_of_lt_of_le held (doc.reach_le_takeOps ops o.writer))
    · exact doc.held_or_parked_takeOps (.inl parked)
  known := pendingKnown_takeOps books.known ops rfl
  truthful := books.truthful
  same := books.same
  within := by
    rintro o (disk | applied | parked)
    · exact books.within o (.inl disk)
    · obtain old | wait | new := LoroDoc.mem_of_mem_takeOps applied
      · exact books.within o (.inr (.inl old))
      · exact books.within o (.inr (.inr wait))
      · exact carries o new
    · obtain wait | new := LoroDoc.mem_of_takeOps_parked parked
      · exact books.within o (.inr (.inr wait))
      · exact carries o new
  own := books.own

/-- A block of the setting written into the directory, and no more. -/
theorem Books.writeBlock (mem : name ∈ k.names) (carries : k.Carries (k.content name)) :
    Books k (s.writeBlock name (k.content name)) doc where
  listed := books.listed
  merged := by
    intro n held ops block
    refine books.merged n held ops ?_
    obtain there | named := block
    · by_cases is : n = name
      · subst is
        exact .inr ⟨mem, by simpa [BlockStore.writeBlock] using there⟩
      · exact .inl ((AList.lookup_insert_ne is).symm.trans there)
    · exact .inr named
  known := books.known
  truthful := fun n listed named ops content o inBlock =>
    operations_grow (books.same name mem) (books.truthful n listed named ops content o inBlock)
  same := by
    intro n named b there
    by_cases is : n = name
    · subst is
      have content : some (k.content n) = some b := by simpa [BlockStore.writeBlock] using there
      exact (Option.some.inj content).symm
    · have there : s.dir.blocks.lookup n = some b := by
        rw [← there]
        exact (AList.lookup_insert_ne is).symm
      exact books.same n named b there
  within := by
    rintro o (disk | rest)
    · obtain old | ⟨ops, content, inBlock⟩ := operations_insert disk
      · exact books.within o (.inl old)
      · exact carries ops content o inBlock
    · exact books.within o (.inr rest)
  own := books.own

/-- A block that is on disk and merged is remembered. -/
theorem Books.remember (disk : ∀ ops, k.content name = some ops → ∀ o ∈ ops, o ∈ operations s.dir.blocks)
    (merged : ∀ ops, Block k s name ops → ∀ o ∈ ops, Held doc.applied o ∨ o ∈ doc.parked) :
    Books k (s.remember name) doc where
  listed := by
    intro n mem
    obtain rfl | before := Finset.mem_insert.mp mem
    · exact Finset.mem_insert_self _ _
    · exact Finset.mem_insert_of_mem (books.listed n before)
  merged := by
    intro n mem
    obtain rfl | before := Finset.mem_insert.mp mem
    · exact merged
    · exact books.merged n before
  known := books.known
  truthful := by
    intro n listed named
    obtain rfl | before := Finset.mem_insert.mp listed
    · exact disk
    · exact books.truthful n before named
  same := books.same
  within := books.within
  own := fun kind seq named => Finset.mem_insert_of_mem (books.own kind seq named)

/-- Saving the ledger touches none of this. -/
theorem Books.settled (v : SyncVersion) : Books k { s.saveLedger with onDisk := v } doc :=
  { books with }

end

/-- A directory and its ledger as a store leaves them: the ledger lists what is in a block on disk, and the blocks of
  the name the directory is opened under. -/
structure Tidy (k : Setting) (dir : Dir) (peer : Writer) : Prop where
  truthful : ∀ n ∈ dir.merged, n ∈ k.names → ∀ ops, k.content n = some ops → ∀ o ∈ ops, o ∈ operations dir.blocks
  same : ∀ n ∈ k.names, ∀ b, dir.blocks.lookup n = some b → b = k.content n
  within : ∀ o ∈ operations dir.blocks, o ∈ k.ops
  own : ∀ kind seq, .block kind peer seq ∈ k.names → .block kind peer seq ∈ dir.merged

/-- A store just loaded from such a directory is in good order, whatever blocks would not read. -/
theorem load_books {unread : BlockName → Bool} {dir : Dir} {peer : Writer} {pen pile : Option Nat} {loaded : Loaded}
    (tidy : Tidy k dir peer) (ran : load io unread dir peer pen pile = .ok loaded) :
    Books k loaded.store loaded.doc := by
  obtain ⟨doc, blocks, _, held, pending⟩ := load_cases ran
  have ledger := load_ledger ran
  have named := (load_pen ran).1
  have read := readBlocks_accounts unread peer dir.blocks
  generalize readBlocks unread (LoroDoc.open peer) dir.blocks.entries = imported at doc held pending read
  -- what a block held carries, as it is on disk
  have content {n : BlockName} (mem : n ∈ loaded.store.held) {ops : List SyncOp}
      (block : Block k loaded.store n ops) : dir.blocks.lookup n = some (some ops) := by
    obtain there | ⟨known, is⟩ := block
    · rwa [blocks] at there
    · rw [held] at mem
      obtain ⟨e, listed, rfl⟩ := read.listed n mem
      have found := AList.mem_lookup_iff.mpr listed
      rw [Option.mem_def.mp found, tidy.same e.1 known e.2 found, is]
  refine ⟨fun n mem => ?_, fun n mem ops block o inBlock => ?_, fun o waits => ?_,
    fun n listed known ops is o inBlock => ?_, ?_, ?_, fun kind seq known => ?_⟩
  · rw [ledger]
    exact Finset.mem_union_right _ mem
  · have listed : (⟨n, some ops⟩ : Sigma fun _ : BlockName => Bytes) ∈ dir.blocks.entries :=
      AList.mem_lookup_iff.mp (content mem block)
    obtain ⟨ops', is, all⟩ := read.named _ listed (held ▸ mem)
    cases is
    rw [doc]
    exact all o inBlock
  · rw [doc] at waits
    rw [pending]
    exact read.known o waits
  · rw [blocks]
    rw [ledger] at listed
    obtain before | new := Finset.mem_union.mp listed
    · exact tidy.truthful n before known ops is o inBlock
    · exact ⟨n, ops, content new (.inr ⟨known, is⟩), inBlock⟩
  · rw [blocks]
    exact tidy.same
  · rw [blocks]
    rintro o (disk | taken)
    · exact tidy.within o disk
    · rw [doc] at taken
      obtain ⟨e, listed, ops, is, mem⟩ := read.fromBlocks o taken
      exact tidy.within o ⟨e.1, ops, AList.mem_lookup_iff.mpr (is ▸ listed), mem⟩
  · rw [named] at known ⊢
    rw [ledger]
    exact Finset.mem_union_left _ (tidy.own kind seq known)

/-- Everything absorbing a block of the setting does. -/
theorem Books.absorb (books : Books k s doc) (mem : name ∈ k.names) (carries : k.Carries (k.content name))
    {doc' : LoroDoc} {r : Except String Unit} (ran : s.absorb io doc name (k.content name) = (r, doc', s')) :
    Books k s' doc' ∧ s.ledger ⊆ s'.ledger ∧
      (s'.dir.blocks = s.dir.blocks ∨ s'.dir.blocks = s.dir.blocks.insert name (k.content name)) ∧
      (r = .ok () → s'.dir.blocks = s.dir.blocks.insert name (k.content name) ∧ name ∈ s'.ledger) := by
  obtain ⟨why, _, rfl, rfl, rfl⟩ | ⟨ops, content, rfl, failed | ⟨s₁, ⟨s₀, same, rfl⟩, ended⟩⟩ := absorb_cases ran
  · exact ⟨books, Finset.Subset.refl _, .inl rfl, nofun⟩
  · obtain ⟨why, rfl, same⟩ := failed
    have taken := (books.takeOps (carries ops content)).of_same same
    exact ⟨taken, by rw [same.ledger]; exact Finset.Subset.refl _, .inl same.blocks, nofun⟩
  · have taken := (books.takeOps (carries ops content)).of_same same
    -- what is in the block is held or parked by now
    have merged : ∀ ops', k.content name = some ops' →
        ∀ o ∈ ops', Held (doc.takeOps ops).applied o ∨ o ∈ (doc.takeOps ops).parked := by
      intro ops' content' o inBlock
      cases content.symm.trans content'
      exact doc.held_or_parked_takeOps (.inr inBlock)
    have written := taken.writeBlock mem carries
    have there : (s₀.writeBlock name (k.content name)).dir.blocks.lookup name = some (k.content name) :=
      AList.lookup_insert _
    have remembered := written.remember
      (fun ops' content' o inBlock => ⟨name, ops', by rw [there, content'], inBlock⟩)
      (fun ops' block => merged ops' (block.elim (fun found => Option.some.inj (there.symm.trans found)) And.right))
    have blocks : (s₀.writeBlock name (k.content name)).dir.blocks = s.dir.blocks.insert name (k.content name) := by
      rw [show s.dir.blocks = s₀.dir.blocks from same.blocks.symm]
      rfl
    have ledger : s.ledger ⊆ ((s₀.writeBlock name (k.content name)).remember name).ledger := by
      intro n listed
      exact Finset.mem_insert_of_mem (same.ledger ▸ listed : n ∈ s₀.ledger)
    obtain ⟨why, rfl, rfl⟩ | ⟨rfl, rfl⟩ := ended
    · exact ⟨remembered, ledger, .inr blocks, nofun⟩
    · exact ⟨remembered.settled _, ledger, .inr blocks, fun _ => ⟨blocks, Finset.mem_insert_self _ _⟩⟩

/-- What a compaction deletes is in its snapshot: nothing waits, so all that was merged is held. -/
theorem Compacted.operations_grow (books : Books k s doc) (coherent : Coherent k.ops)
    (compacted : Compacted doc s s' path) : operations s.dir.blocks ⊆ operations s'.dir.blocks := by
  rintro o ⟨n, ops, there, inBlock⟩
  have other : n ≠ path := by
    rintro rfl
    exact compacted.free.1 (AList.lookup_isSome.mp (by rw [there]; rfl))
  by_cases held : n ∈ s.held
  · have reached : Held doc.applied o := by
      obtain held | parked := books.merged n held ops (.inl there) o inBlock
      · exact held
      · exact held_of_recorded compacted.resolved (books.known o parked)
    have applied : o ∈ doc.applied :=
      mem_of_held coherent doc.causal (fun o mem => books.within o (.inr (.inl mem)))
        (books.within o (.inl ⟨n, ops, there, inBlock⟩)) reached
    exact ⟨path, doc.applied, compacted.snapshot, applied⟩
  · exact ⟨n, ops, by rw [compacted.kept n other held]; exact there, inBlock⟩

/-- The snapshot's name was not in use when the plan was made. -/
theorem Compacted.fresh (books : Books k s doc) (compacted : Compacted doc s s' path) : path ∉ k.names := by
  obtain ⟨seq, rfl⟩ := compacted.name
  exact fun used => compacted.free.2 (books.own .snap seq used)

theorem Compacted.books (books : Books k s doc) (coherent : Coherent k.ops) (compacted : Compacted doc s s' path) :
    Books k s' doc := by
  have grow := compacted.operations_grow books coherent
  have fresh := compacted.fresh books
  refine ⟨fun n mem => ?_, fun n mem ops there o inBlock => ?_, ?_, ?_, fun n named b there => ?_, ?_, ?_⟩
  · rw [compacted.ledger]
    obtain rfl | before := compacted.held n mem
    · exact Finset.mem_insert_self _ _
    · exact Finset.mem_insert_of_mem (books.listed n before)
  · by_cases is : n = path
    · subst is
      obtain found | ⟨named, _⟩ := there
      · rw [compacted.snapshot] at found
        cases Option.some.inj found
        exact .inl (doc.causal.held inBlock)
      · exact absurd named fresh
    · exact books.merged n ((compacted.held n mem).resolve_left is) ops (there.imp_left (compacted.old n _ is)) o inBlock
  · unfold PendingKnown
    rw [compacted.pending]
    exact books.known
  · intro n listed named ops content o inBlock
    rw [compacted.ledger] at listed
    obtain rfl | before := Finset.mem_insert.mp listed
    · exact absurd named fresh
    · exact grow (books.truthful n before named ops content o inBlock)
  · have other : n ≠ path := fun is => fresh (is ▸ named)
    exact books.same n named b (compacted.old n b other there)
  · rintro o (⟨n, ops, there, inBlock⟩ | rest)
    · by_cases is : n = path
      · subst is
        rw [compacted.snapshot] at there
        cases Option.some.inj there
        exact books.within o (.inr (.inl inBlock))
      · exact books.within o (.inl ⟨n, ops, compacted.old n _ is there, inBlock⟩)
    · exact books.within o (.inr rest)
  · intro kind seq named
    rw [compacted.ledger]
    exact Finset.mem_insert_of_mem (books.own kind seq named)

end Store

/-! ### One side -/

/-- A side that keeps a ledger. -/
def Node.Keeps : Node → Prop
  | .store _ _ => True
  | .dumb _ => False

/-- A side whose files are those of the setting, and whose books are in order. -/
def Tells (k : Setting) : Node → Prop
  | .store s doc => Books k s doc
  | .dumb blocks => (∀ n ∈ k.names, ∀ b, blocks.lookup n = some b → b = k.content n) ∧
      ∀ o ∈ operations blocks, o ∈ k.ops

/-- What no step takes away: a block ever merged, an operation on disk, and a block, but for one that was merged. -/
structure Node.Later (node node' : Node) : Prop where
  keeps : node'.Keeps ↔ node.Keeps
  merged : node.merged ⊆ node'.merged
  disk : operations node.blocks ⊆ operations node'.blocks
  gone : ∀ n ∈ node.blocks, n ∈ node'.blocks ∨ n ∈ node'.merged

theorem Node.Later.refl (node : Node) : node.Later node :=
  ⟨Iff.rfl, Finset.Subset.refl _, Set.Subset.refl _, fun _ mem => .inl mem⟩

theorem Node.Later.trans {a b c : Node} (first : a.Later b) (second : b.Later c) : a.Later c := by
  refine ⟨second.keeps.trans first.keeps, first.merged.trans second.merged, first.disk.trans second.disk, ?_⟩
  intro n mem
  obtain there | merged := first.gone n mem
  · exact second.gone n there
  · exact .inr (second.merged merged)

section Side

variable {k : Setting} {node : Node}

section

variable (tells : Tells k node)
include tells

theorem Tells.same {n : BlockName} (named : n ∈ k.names) {b : Bytes}
    (there : node.blocks.lookup n = some b) : b = k.content n := by
  cases node with
  | store s doc => exact Books.same tells n named b there
  | dumb blocks => exact tells.1 n named b there

theorem Tells.within {o : SyncOp} (mem : o ∈ operations node.blocks) : o ∈ k.ops := by
  cases node with
  | store s doc => exact Books.within tells o (.inl mem)
  | dumb blocks => exact tells.2 o mem

/-- What a ledger lists is in a block on disk. -/
theorem Tells.truthful {n : BlockName} (merged : n ∈ node.merged) (named : n ∈ k.names) {ops : List SyncOp}
    (content : k.content n = some ops) {o : SyncOp} (mem : o ∈ ops) : o ∈ operations node.blocks := by
  cases node with
  | store s doc => exact Books.truthful tells n merged named ops content o mem
  | dumb blocks => exact absurd merged (Finset.notMem_empty n)

theorem later_insert {node' : Node} {name : BlockName} (mem : name ∈ k.names)
    (keeps : node'.Keeps ↔ node.Keeps) (merged : node.merged ⊆ node'.merged)
    (blocks : node'.blocks = node.blocks ∨ node'.blocks = node.blocks.insert name (k.content name)) :
    node.Later node' := by
  obtain same | inserted := blocks
  · exact ⟨keeps, merged, by rw [same], fun n there => .inl (by rw [same]; exact there)⟩
  · refine ⟨keeps, merged, ?_, fun n there => .inl ?_⟩
    · rw [inserted]
      exact operations_grow fun b there => (tells.same mem there)
    · rw [inserted, AList.mem_insert]
      exact .inr there

/-- What taking in a block of the setting does to a side. -/
theorem take_tells {raw : Bool} {name : BlockName} (mem : name ∈ k.names) (carries : k.Carries (k.content name))
    {ok : Bool} {node' : Node} (ran : node.take io raw name (k.content name) = (ok, node')) :
    Tells k node' ∧ node.Later node' ∧ (∀ n ∈ node'.blocks, n ∈ node.blocks ∨ n = name) ∧
      (ok = true → node'.blocks.lookup name = some (k.content name) ∧
        (raw = false → node.Keeps → name ∈ node'.merged)) := by
  have from_insert {blocks blocks' : Blocks}
      (is : blocks' = blocks ∨ blocks' = blocks.insert name (k.content name)) (n : BlockName) (there : n ∈ blocks') :
      n ∈ blocks ∨ n = name := by
    obtain rfl | rfl := is
    · exact .inl there
    · exact ((AList.mem_insert _).mp there).symm
  cases node with
  | dumb blocks =>
      obtain ⟨rfl, rfl⟩ := Prod.mk.inj ran
      refine ⟨⟨fun n named b there => ?_, fun o disk => ?_⟩,
        later_insert tells mem Iff.rfl (Finset.Subset.refl _) (.inr rfl), from_insert (.inr rfl),
        fun _ => ⟨AList.lookup_insert _, fun _ keeps => keeps.elim⟩⟩
      · by_cases is : n = name
        · subst is
          rw [AList.lookup_insert] at there
          exact (Option.some.inj there).symm
        · rw [AList.lookup_insert_ne is] at there
          exact tells.1 n named b there
      · obtain old | ⟨ops, content, inBlock⟩ := operations_insert disk
        · exact tells.2 o old
        · exact carries ops content o inBlock
  | store s doc =>
      have books : Books k s doc := tells
      unfold Node.take at ran
      cases raw with
      | true =>
          obtain ⟨rfl, rfl⟩ := Prod.mk.inj ran
          exact ⟨books.writeBlock mem carries, later_insert tells mem Iff.rfl (Finset.Subset.refl _) (.inr rfl),
            from_insert (.inr rfl), fun _ => ⟨AList.lookup_insert _, nofun⟩⟩
      | false =>
          obtain ⟨r, doc', s', absorbed⟩ : ∃ r doc' s', s.absorb io doc name (k.content name) = (r, doc', s') :=
            ⟨_, _, _, rfl⟩
          obtain ⟨books', ledger, blocks, done⟩ := books.absorb mem carries absorbed
          simp only [Bool.false_eq_true, if_false, absorbed] at ran
          cases r with
          | error why =>
              obtain ⟨rfl, rfl⟩ := Prod.mk.inj ran
              exact ⟨books', later_insert tells mem Iff.rfl ledger blocks, from_insert blocks, nofun⟩
          | ok _ =>
              obtain ⟨rfl, rfl⟩ := Prod.mk.inj ran
              obtain ⟨inserted, listed⟩ := done rfl
              exact ⟨books', later_insert tells mem Iff.rfl ledger blocks, from_insert blocks,
                fun _ => ⟨(congrArg (·.lookup name) inserted).trans (AList.lookup_insert _), fun _ _ => listed⟩⟩

/-- What compacting does to a side. -/
theorem compact_tells (coherent : Coherent k.ops) (io : Io) :
    Tells k (node.compact io) ∧ node.Later (node.compact io) ∧
      ∀ n ∈ (node.compact io).blocks, n ∈ node.blocks ∨ n ∈ newNames node.blocks (node.compact io).blocks := by
  have named (blocks' : Blocks) (n : BlockName) (there : n ∈ blocks') : n ∈ node.blocks ∨ n ∈ newNames node.blocks blocks' := by
    by_cases before : n ∈ node.blocks
    · exact .inl before
    · refine .inr (Finset.mem_sdiff.mpr ⟨List.mem_toFinset.mpr (AList.mem_keys.mp there), fun old => before ?_⟩)
      exact AList.mem_keys.mpr (List.mem_toFinset.mp old)
  cases node with
  | dumb blocks => exact ⟨tells, .refl _, named _⟩
  | store s doc =>
      have books : Books k s doc := tells
      obtain ⟨r, s', ran⟩ : ∃ r s', s.compact io doc = (r, s') := ⟨_, _, rfl⟩
      have is : (Node.store s doc).compact io = .store s' doc := by rw [Node.compact, ran]
      rw [is]
      obtain same | ⟨path, compacted⟩ := compact_books ran
      · refine ⟨books.of_same same, ⟨Iff.rfl, ?_, ?_, fun n there => .inl ?_⟩, named _⟩
        · change s.ledger ⊆ s'.ledger
          rw [same.ledger]
        · change operations s.dir.blocks ⊆ operations s'.dir.blocks
          rw [same.blocks]
        · change n ∈ s'.dir.blocks
          rw [same.blocks]
          exact there
      · refine ⟨compacted.books books coherent, ⟨Iff.rfl, ?_, compacted.operations_grow books coherent, ?_⟩, named _⟩
        · change s.ledger ⊆ s'.ledger
          rw [compacted.ledger]
          exact Finset.subset_insert path s.ledger
        · intro n there
          by_cases held : n ∈ s.held
          · right
            have listed : n ∈ s'.ledger := compacted.ledger ▸ Finset.mem_insert_of_mem (books.listed n held)
            exact listed
          · left
            have other : n ≠ path := by
              rintro rfl
              exact compacted.free.1 there
            have found := compacted.kept n other held
            have some_ : (s.dir.blocks.lookup n).isSome := AList.lookup_isSome.mpr there
            exact AList.lookup_isSome.mp (found ▸ some_)

end

end Side

/-! ### Both sides -/

/-- Two sides before a plan: their books are in order, and every block there is one of the setting's. -/
structure Ready (k : Setting) (start : World) : Prop where
  here : Tells k start.mine
  there : Tells k start.theirs
  named : ∀ n, n ∈ start.mine.blocks ∨ n ∈ start.theirs.blocks → n ∈ k.names
  carries : ∀ n ∈ k.names, k.Carries (k.content n)
  coherent : Coherent k.ops

/-- What the moves so far have come to. -/
structure Inv (k : Setting) (start w : World) : Prop where
  here : Tells k w.mine
  there : Tells k w.theirs
  hereLater : start.mine.Later w.mine
  thereLater : start.theirs.Later w.theirs
  /-- A block pulled is on disk or merged here, one pushed there, and what is in it. -/
  pulled : ∀ n ∈ w.pulled, (start.mine.Keeps → n ∈ w.mine.merged) ∧
    ∀ ops, k.content n = some ops → ∀ o ∈ ops, o ∈ operations w.mine.blocks
  pushed : ∀ n ∈ w.pushed, (n ∈ w.theirs.blocks ∨ n ∈ w.theirs.merged) ∧
    ∀ ops, k.content n = some ops → ∀ o ∈ ops, o ∈ operations w.theirs.blocks
  presentHere : ∀ n ∈ w.mine.blocks, n ∈ start.mine.blocks ∨ n ∈ start.plan.pull ∨ n ∈ w.snapsHere
  presentThere : ∀ n ∈ w.theirs.blocks, n ∈ start.theirs.blocks ∨ n ∈ start.plan.push ∨ n ∈ w.snapsThere

variable {k : Setting}

theorem Ready.inv {mine theirs : Node} (ready : Ready k (begin_ mine theirs)) :
    Inv k (begin_ mine theirs) (begin_ mine theirs) where
  here := ready.here
  there := ready.there
  hereLater := .refl _
  thereLater := .refl _
  pulled := fun n mem => absurd mem (Finset.notMem_empty n)
  pushed := fun n mem => absurd mem (Finset.notMem_empty n)
  presentHere := fun _ mem => .inl mem
  presentThere := fun _ mem => .inl mem

section Steps

variable {k : Setting} {start w : World}

theorem mem_pull {n : BlockName} : n ∈ start.plan.pull ↔ n ∈ start.theirs.blocks ∧ n ∉ start.mine.merged := by
  rw [World.plan, plan, Finset.mem_sdiff, Node.side, List.mem_toFinset, ← AList.mem_keys]
  rfl

theorem mem_push {n : BlockName} : n ∈ start.plan.push ↔
    n ∈ start.mine.blocks ∧ n ∉ start.theirs.blocks ∧ n ∉ start.theirs.merged := by
  simp only [World.plan, plan, Node.side, Finset.mem_filter, List.mem_toFinset, ← AList.mem_keys]

section

variable (ready : Ready k start) (inv : Inv k start w)
include ready inv

/-- A move here: what was there stays, and the block moved is there. -/
theorem Inv.moveHere {name : BlockName} {bytes : Bytes}
    (planned : name ∈ start.plan.pull) (found : start.theirs.blocks.lookup name = some bytes) {ok : Bool}
    {node : Node} (ran : w.mine.take io false name bytes = (ok, node)) :
    Inv k start { w with mine := node, pulled := if ok then insert name w.pulled else w.pulled } ∧
      w.mine.Later node := by
  have mem : name ∈ k.names := ready.named name (.inr (mem_pull.mp planned).1)
  obtain rfl := ready.there.same mem found
  obtain ⟨tells, later, names, done⟩ := take_tells inv.here mem (ready.carries name mem) ran
  have pulled : ∀ n ∈ w.pulled, (start.mine.Keeps → n ∈ node.merged) ∧
      ∀ ops, k.content n = some ops → ∀ o ∈ ops, o ∈ operations node.blocks := fun n moved =>
    ⟨fun keeps => later.merged ((inv.pulled n moved).1 keeps),
      fun ops content o inBlock => later.disk ((inv.pulled n moved).2 ops content o inBlock)⟩
  refine ⟨{ inv with
    here := tells, hereLater := inv.hereLater.trans later, pulled := ?_, presentHere := fun n there => ?_ }, later⟩
  · cases ok with
    | false => exact pulled
    | true =>
        obtain ⟨written, listed⟩ := done rfl
        intro n moved
        obtain rfl | before := Finset.mem_insert.mp moved
        · exact ⟨fun keeps => listed rfl (inv.hereLater.keeps.mpr keeps),
            fun ops content o inBlock => ⟨n, ops, by rw [written, content], inBlock⟩⟩
        · exact pulled n before
  · obtain before | rfl := names n there
    · exact inv.presentHere n before
    · exact .inr (.inl planned)

/-- A move there. -/
theorem Inv.moveThere {name : BlockName} {raw : Bool} {bytes : Bytes}
    (planned : name ∈ start.plan.push) (found : start.mine.blocks.lookup name = some bytes) {ok : Bool} {node : Node}
    (ran : w.theirs.take io raw name bytes = (ok, node)) :
    Inv k start { w with theirs := node, pushed := if ok then insert name w.pushed else w.pushed } ∧
      w.theirs.Later node := by
  have mem : name ∈ k.names := ready.named name (.inl (mem_push.mp planned).1)
  obtain rfl := ready.here.same mem found
  obtain ⟨tells, later, names, done⟩ := take_tells inv.there mem (ready.carries name mem) ran
  have pushed : ∀ n ∈ w.pushed, (n ∈ node.blocks ∨ n ∈ node.merged) ∧
      ∀ ops, k.content n = some ops → ∀ o ∈ ops, o ∈ operations node.blocks := fun n moved =>
    ⟨(inv.pushed n moved).1.elim (later.gone n) fun listed => .inr (later.merged listed),
      fun ops content o inBlock => later.disk ((inv.pushed n moved).2 ops content o inBlock)⟩
  refine ⟨{ inv with
    there := tells, thereLater := inv.thereLater.trans later, pushed := ?_, presentThere := fun n there => ?_ }, later⟩
  · cases ok with
    | false => exact pushed
    | true =>
        obtain ⟨written, _⟩ := done rfl
        intro n moved
        obtain rfl | before := Finset.mem_insert.mp moved
        · exact ⟨.inl (AList.lookup_isSome.mp (by rw [written]; rfl)),
            fun ops content o inBlock => ⟨n, ops, by rw [written, content], inBlock⟩⟩
        · exact pushed n before
  · obtain before | rfl := names n there
    · exact inv.presentThere n before
    · exact .inr (.inl planned)

/-- Step lemma; no step takes a ledger's line away. -/
theorem Inv.step {e : Event} (may : start.May w e) :
    Inv k start (start.step w e) ∧ w.mine.Later (start.step w e).mine ∧ w.theirs.Later (start.step w e).theirs := by
  cases e with
  | pull name io =>
      cases found : start.theirs.blocks.lookup name with
      | none =>
          simp only [World.step, found]
          exact ⟨inv, .refl _, .refl _⟩
      | some bytes =>
          obtain ⟨ok, node, ran⟩ : ∃ ok node, w.mine.take io false name bytes = (ok, node) := ⟨_, _, rfl⟩
          simp only [World.step, found, ran]
          obtain ⟨after, later⟩ := inv.moveHere ready may found ran
          exact ⟨after, later, .refl _⟩
  | push name io raw =>
      cases found : start.mine.blocks.lookup name with
      | none =>
          simp only [World.step, found]
          exact ⟨inv, .refl _, .refl _⟩
      | some bytes =>
          obtain ⟨ok, node, ran⟩ : ∃ ok node, w.theirs.take io raw name bytes = (ok, node) := ⟨_, _, rfl⟩
          simp only [World.step, found, ran]
          obtain ⟨after, later⟩ := inv.moveThere ready may found ran
          exact ⟨after, .refl _, later⟩
  | compact who io =>
      cases who with
      | mine =>
          obtain ⟨tells, later, names⟩ := compact_tells inv.here ready.coherent io
          refine ⟨{ inv with
            here := tells, hereLater := inv.hereLater.trans later
            pulled := fun n moved => ⟨fun keeps => later.merged ((inv.pulled n moved).1 keeps),
              fun ops content o inBlock => later.disk ((inv.pulled n moved).2 ops content o inBlock)⟩
            presentHere := fun n there => ?_ }, later, .refl _⟩
          obtain before | new := names n there
          · exact (inv.presentHere n before).imp_right (.imp_right (Finset.mem_union_left _))
          · exact .inr (.inr (Finset.mem_union_right _ new))
      | theirs =>
          obtain ⟨tells, later, names⟩ := compact_tells inv.there ready.coherent io
          refine ⟨{ inv with
            there := tells, thereLater := inv.thereLater.trans later
            pushed := fun n moved => ⟨(inv.pushed n moved).1.elim (later.gone n) fun listed => .inr (later.merged listed),
              fun ops content o inBlock => later.disk ((inv.pushed n moved).2 ops content o inBlock)⟩
            presentThere := fun n there => ?_ }, .refl _, later⟩
          obtain before | new := names n there
          · exact (inv.presentThere n before).imp_right (.imp_right (Finset.mem_union_left _))
          · exact .inr (.inr (Finset.mem_union_right _ new))

end

/-- What is pulled when a plan is full, and there is a ledger here that lists every block: snapshots written there
  meanwhile. -/
theorem Inv.pull_snaps (inv : Inv k start w) (keeps : start.mine.Keeps)
    (listed : ∀ n ∈ start.mine.blocks, n ∈ start.mine.merged) (full : World.Full start w) :
    w.plan.pull ⊆ w.snapsThere := by
  intro n pull
  obtain ⟨present, unmerged⟩ := mem_pull.mp pull
  obtain there | pushed | snap := inv.presentThere n present
  · by_cases before : n ∈ start.mine.merged
    · exact absurd (inv.hereLater.merged before) unmerged
    · have moved := full.1 (mem_pull.mpr ⟨there, before⟩)
      exact absurd ((inv.pulled n moved).1 keeps) unmerged
  · have here := listed n (mem_push.mp pushed).1
    exact absurd (inv.hereLater.merged here) unmerged
  · exact snap

/-- And what is pushed: snapshots written here. -/
theorem Inv.push_snaps (inv : Inv k start w) (full : World.Full start w) : w.plan.push ⊆ w.snapsHere := by
  intro n push
  obtain ⟨present, absent, unmerged⟩ := mem_push.mp push
  have not_there (had : n ∈ start.theirs.blocks) : False :=
    (inv.thereLater.gone n had).elim absent unmerged
  obtain here | pulled | snap := inv.presentHere n present
  · by_cases there : n ∈ start.theirs.blocks
    · exact (not_there there).elim
    · by_cases merged : n ∈ start.theirs.merged
      · exact absurd (inv.thereLater.merged merged) unmerged
      · have moved := full.2 (mem_push.mpr ⟨here, there, merged⟩)
        exact ((inv.pushed n moved).1.elim absent unmerged).elim
  · exact (not_there (mem_pull.mp pulled).1).elim
  · exact snap

/-- Every operation that was on either disk is on both. -/
theorem Inv.operations_both (ready : Ready k start) (inv : Inv k start w) (full : World.Full start w) {o : SyncOp}
    (mem : o ∈ operations start.mine.blocks ∨ o ∈ operations start.theirs.blocks) :
    o ∈ operations w.mine.blocks ∧ o ∈ operations w.theirs.blocks := by
  obtain here | there := mem
  · refine ⟨inv.hereLater.disk here, ?_⟩
    obtain ⟨n, ops, found, inBlock⟩ := here
    have present : n ∈ start.mine.blocks := AList.lookup_isSome.mp (by rw [found]; rfl)
    have named := ready.named n (.inl present)
    have content := (ready.here.same named found).symm
    by_cases stands : n ∈ start.theirs.blocks
    · obtain ⟨b, found'⟩ := Option.isSome_iff_exists.mp (AList.lookup_isSome.mpr stands)
      have same := ready.there.same named found'
      exact inv.thereLater.disk ⟨n, ops, by rw [found', same, content], inBlock⟩
    · by_cases merged : n ∈ start.theirs.merged
      · exact inv.thereLater.disk (ready.there.truthful merged named content inBlock)
      · exact (inv.pushed n (full.2 (mem_push.mpr ⟨present, stands, merged⟩))).2 ops content o inBlock
  · refine ⟨?_, inv.thereLater.disk there⟩
    obtain ⟨n, ops, found, inBlock⟩ := there
    have present : n ∈ start.theirs.blocks := AList.lookup_isSome.mp (by rw [found]; rfl)
    have named := ready.named n (.inr present)
    have content := (ready.there.same named found).symm
    by_cases merged : n ∈ start.mine.merged
    · exact inv.hereLater.disk (ready.here.truthful merged named content inBlock)
    · exact (inv.pulled n (full.1 (mem_pull.mpr ⟨present, merged⟩))).2 ops content o inBlock

end Steps

/-- What a reader reads grows with the operations on disk. -/
theorem Readable.grow {blocks blocks' : Blocks} (coherent : Coherent k.ops)
    (within : ∀ o ∈ operations blocks', o ∈ k.ops) (grow : operations blocks ⊆ operations blocks') {o : SyncOp}
    (reads : Readable blocks o) : Readable blocks' o := by
  have before := readBlocks_accounts (fun _ => false) 0 blocks
  have after := readBlocks_accounts (fun _ => false) 0 blocks'
  have disk : ∀ o, o ∈ (readBlocks (fun _ => false) (LoroDoc.open 0) blocks.entries).doc.applied →
      o ∈ operations blocks' := by
    intro o applied
    obtain ⟨e, listed, ops, is, mem⟩ := before.fromBlocks o (.inl applied)
    exact grow ⟨e.1, ops, AList.mem_lookup_iff.mpr (is ▸ listed), mem⟩
  have accounted : ∀ o ∈ operations blocks',
      Held (readBlocks (fun _ => false) (LoroDoc.open 0) blocks'.entries).doc.applied o ∨
        o ∈ (readBlocks (fun _ => false) (LoroDoc.open 0) blocks'.entries).doc.parked := by
    rintro o ⟨n, ops, found, mem⟩
    have listed : (⟨n, some ops⟩ : Sigma fun _ : BlockName => Bytes) ∈ blocks'.entries := AList.mem_lookup_iff.mp found
    have named := after.read _ listed rfl (by simp)
    obtain ⟨ops', is, all⟩ := after.named _ listed named
    cases is
    exact all o mem
  have reaches := reach_le_of_accounted
    (readBlocks (fun _ => false) (LoroDoc.open 0) blocks.entries).doc.causal after.settled
    fun o applied => accounted o (disk o applied)
  refine mem_of_held coherent (readBlocks (fun _ => false) (LoroDoc.open 0) blocks'.entries).doc.causal
    (fun o applied => ?_) (within o (disk o reads)) ?_
  · obtain ⟨e, listed, ops, is, mem⟩ := after.fromBlocks o (.inl applied)
    exact within o ⟨e.1, ops, AList.mem_lookup_iff.mpr (is ▸ listed), mem⟩
  · exact Nat.lt_of_lt_of_le
      ((readBlocks (fun _ => false) (LoroDoc.open 0) blocks.entries).doc.causal.held reads) (reaches o.writer)

/-- What is readable comes from operations on disk, with everything it depends on. -/
theorem Readable.union {a b c : Blocks} (coherent : Coherent k.ops) (within : ∀ o ∈ operations c, o ∈ k.ops)
    (grow : ∀ o, o ∈ operations a ∨ o ∈ operations b → o ∈ operations c) {o : SyncOp}
    (reads : Readable a o ∨ Readable b o) : Readable c o := by
  obtain here | there := reads
  · exact here.grow coherent within fun o mem => grow o (.inl mem)
  · exact there.grow coherent within fun o mem => grow o (.inr mem)

/-! ### The plan carried out -/

theorem run_inv {start u w : World} (ready : Ready k start) (inv : Inv k start u)
    (ran : Runs start.step start.May u w) : Inv k start w ∧ u.mine.Later w.mine ∧ u.theirs.Later w.theirs := by
  induction ran with
  | refl => exact ⟨inv, .refl _, .refl _⟩
  | tail _ move ih =>
      obtain ⟨e, may, rfl⟩ := move
      obtain ⟨before, here, there⟩ := ih
      obtain ⟨after, here', there'⟩ := before.step ready may
      exact ⟨after, here.trans here', there.trans there'⟩

/-- A plan made here, where a ledger lists every block, is carried out in any order, with compactions between: no block
  ever merged is moved again; in full, it leaves a plan of nothing but snapshots written meanwhile; and what either
  side could read, both can. -/
theorem plan_brings_together {k : Setting} {mine theirs : Node} (ready : Ready k (begin_ mine theirs))
    (keeps : mine.Keeps) (listed : ∀ n ∈ mine.blocks, n ∈ mine.merged) {u w : World}
    (before : Runs (begin_ mine theirs).step (begin_ mine theirs).May (begin_ mine theirs) u)
    (after : Runs (begin_ mine theirs).step (begin_ mine theirs).May u w) :
    (∀ n ∈ u.mine.merged, n ∉ w.plan.pull) ∧ (∀ n ∈ u.theirs.merged, n ∉ w.plan.push) ∧
      (World.Full (begin_ mine theirs) w → w.plan.pull ⊆ w.snapsThere ∧ w.plan.push ⊆ w.snapsHere ∧
        (w.plan.isEmpty ∨ w.snapsHere ≠ ∅ ∨ w.snapsThere ≠ ∅) ∧
        ∀ o, Readable mine.blocks o ∨ Readable theirs.blocks o →
          Readable w.mine.blocks o ∧ Readable w.theirs.blocks o) := by
  obtain ⟨inv, _, _⟩ := run_inv ready ready.inv before
  obtain ⟨inv, here, there⟩ := run_inv ready inv after
  refine ⟨fun n merged pull => ?_, fun n merged push => ?_, fun full => ?_⟩
  · exact (mem_pull.mp pull).2 (here.merged merged)
  · exact (mem_push.mp push).2.2 (there.merged merged)
  · have pull := inv.pull_snaps keeps listed full
    have push := inv.push_snaps full
    refine ⟨pull, push, ?_, fun o reads => ⟨?_, ?_⟩⟩
    · by_cases none_there : w.snapsThere = ∅
      · by_cases none_here : w.snapsHere = ∅
        · exact .inl ⟨Finset.subset_empty.mp (none_there ▸ pull), Finset.subset_empty.mp (none_here ▸ push)⟩
        · exact .inr (.inl none_here)
      · exact .inr (.inr none_there)
    · exact Readable.union ready.coherent (fun o => inv.here.within)
        (fun o mem => (inv.operations_both ready full mem).1) reads
    · exact Readable.union ready.coherent (fun o => inv.there.within)
        (fun o mem => (inv.operations_both ready full mem).2) reads

/-! ### Two stores with a block each -/

/-- A writer's first operation, and the block it is in. -/
def firstOp (writer : Writer) : SyncOp := { writer := writer, counter := 0, deps := [], body := 0 }

def firstName (writer : Writer) : BlockName := .block .u writer 0

/-- A directory with that one block, in its ledger. -/
def firstDir (writer : Writer) : Dir :=
  { Dir.fresh ['d'] with
    isDir := true, blocks := AList.singleton (firstName writer) (some [firstOp writer])
    merged := { firstName writer } }

/-- The blocks of two writers. -/
def twoSetting : Setting where
  content
    | .block _ writer _ => some [firstOp writer]
    | .other _ => none
  names := { firstName 1, firstName 2 }
  ops := { firstOp 1, firstOp 2 }

theorem first_lookup {n : BlockName} {b : Bytes} (found : (firstDir writer).blocks.lookup n = some b) :
    n = firstName writer ∧ b = some [firstOp writer] := by
  have listed := AList.mem_lookup_iff.mp found
  simp only [firstDir, AList.singleton_entries, List.mem_singleton, Sigma.mk.injEq] at listed
  obtain ⟨rfl, same⟩ := listed
  exact ⟨rfl, eq_of_heq same⟩

theorem first_tidy (known : writer = 1 ∨ writer = 2) : Tidy twoSetting (firstDir writer) writer where
  truthful := by
    intro n listed _ ops content o mem
    obtain rfl := Finset.mem_singleton.mp listed
    have there : (firstDir writer).blocks.lookup (firstName writer) = some (some [firstOp writer]) :=
      @AList.lookup_insert _ (fun _ => Bytes) _ (firstName writer) (some [firstOp writer]) ∅
    exact ⟨firstName writer, ops, there.trans (congrArg some content), mem⟩
  same := by
    intro n _ b found
    obtain ⟨rfl, rfl⟩ := first_lookup found
    rfl
  within := by
    rintro o ⟨n, ops, found, mem⟩
    obtain rfl := Option.some.inj (first_lookup found).2
    obtain rfl := List.mem_singleton.mp mem
    exact known.imp (congrArg firstOp) (congrArg firstOp)
  own := by
    intro kind seq named
    obtain is | is := named
    all_goals
      cases is
      exact Finset.mem_singleton_self _

/-- The side a load opens. -/
def opens : Except String Loaded → Node
  | .ok loaded => .store loaded.store loaded.doc
  | .error _ => .dumb ∅

def firstSide (writer : Writer) : Node := opens (load {} (fun _ => false) (firstDir writer) writer none none)

theorem firstSide_tells (known : writer = 1 ∨ writer = 2) : Tells twoSetting (firstSide writer) := by
  cases ran : load {} (fun _ => false) (firstDir writer) writer none none with
  | error why =>
      rw [firstSide, ran]
      refine ⟨fun n _ b found => ?_, fun o disk => ?_⟩
      · cases found
      · obtain ⟨n, ops, found, _⟩ := disk
        cases found
  | ok loaded =>
      rw [firstSide, ran]
      exact load_books (first_tidy known) ran

/-- Two stores just loaded, with one block each. -/
def twoSides : World := begin_ (firstSide 1) (firstSide 2)

theorem twoSides_ready : Ready twoSetting twoSides where
  here := firstSide_tells (.inl rfl)
  there := firstSide_tells (.inr rfl)
  named := by
    rintro n (mem | mem)
    all_goals
      obtain ⟨b, found⟩ := Option.isSome_iff_exists.mp (AList.lookup_isSome.mpr mem)
      obtain ⟨rfl, _⟩ := first_lookup found
    · exact .inl rfl
    · exact .inr rfl
  carries := by
    rintro n (rfl | rfl) ops is o mem
    all_goals
      cases is
      obtain rfl := List.mem_singleton.mp mem
    · exact .inl rfl
    · exact .inr rfl
  coherent := by
    rintro o (rfl | rfl) o' (rfl | rfl) same
    · rfl
    · cases same
    · cases same
    · rfl

/-- The plan's two moves, and a compaction here between them. -/
def twoMoved : World :=
  [Event.pull (firstName 2) {}, .compact .mine {}, .push (firstName 1) {} false].foldl twoSides.step twoSides

/-- Each side has the other one's operation, and what is left to push is the snapshot. -/
theorem plan_brings_together_two :
    twoMoved.plan.pull = ∅ ∧ twoMoved.plan.push ⊆ twoMoved.snapsHere ∧ twoMoved.snapsHere ≠ ∅ ∧
      Readable twoMoved.mine.blocks (firstOp 2) ∧ Readable twoMoved.theirs.blocks (firstOp 1) := by
  have pulls : firstName 2 ∈ twoSides.plan.pull := mem_pull.mpr ⟨by decide, by decide⟩
  have pushes : firstName 1 ∈ twoSides.plan.push := mem_push.mpr ⟨by decide, by decide, by decide⟩
  have run : Runs twoSides.step twoSides.May twoSides twoMoved :=
    ((Relation.ReflTransGen.single ⟨.pull (firstName 2) {}, pulls, rfl⟩).tail
      ⟨.compact .mine {}, trivial, rfl⟩).tail ⟨.push (firstName 1) {} false, pushes, rfl⟩
  have full : World.Full twoSides twoMoved := ⟨by decide, by decide⟩
  obtain ⟨pull, push, _, both⟩ := (plan_brings_together twoSides_ready trivial (by decide) (.refl _) run).2.2 full
  have snaps : twoMoved.snapsThere = ∅ := by decide
  have here : Readable (firstSide 1).blocks (firstOp 1) := by
    unfold Readable
    decide
  have there : Readable (firstSide 2).blocks (firstOp 2) := by
    unfold Readable
    decide
  exact ⟨Finset.subset_empty.mp (snaps ▸ pull), push, by decide, (both _ (.inr there)).1, (both _ (.inl here)).2⟩

/-- A side that keeps no ledger pulls what it has, and pulls it again after the plan was carried out in full. -/
theorem dumb_pulls_again :
    let start := begin_ (.dumb (firstDir 2).blocks) (.dumb (firstDir 2).blocks)
    let w := start.step start (.pull (firstName 2) {})
    start.May start (.pull (firstName 2) {}) ∧ World.Full start w ∧ firstName 2 ∈ w.plan.pull ∧ w.snapsHere = ∅ ∧
      w.snapsThere = ∅ := by
  exact ⟨mem_pull.mpr ⟨by decide, by decide⟩, ⟨by decide, by decide⟩, by decide, rfl, rfl⟩

end Khor.Sync.Planned
