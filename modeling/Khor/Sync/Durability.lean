/-
Module: Khor.Sync.Durability
Purpose: What `on_disk` is worth. Along a run of local edits, flushes, foreign blocks, compactions,
  recorded imports, wire merges and reloads, any of them failing at any file step, each operation
  `on_disk` covers is in a block file, provided no foreign block is taken in while the document holds
  or has parked an operation that is in no block file. Taking one in earlier counts the whole live
  version as on disk, and the operations not yet flushed are then never written.
Trusted boundary: none
Main exports: Event, step, Accounted, accounted_of_run, absorb_counts_an_unwritten_edit
-/
import Khor.Sync.Load

namespace Khor.Sync.Durability

open Khor.Sync.BlockStore

/-- What happens to one open copy, with the outside's answers. -/
inductive Event where
  | edit (deps : List (Writer × Nat)) (body : Nat)
  | flush (io : Io)
  | absorb (io : Io) (name : BlockName) (bytes : Bytes)
  | compact (io : Io)
  | recordImport (report : MergeReport)
  | wireMerge (io : Io) (bytes : Bytes)
  | reload (io : Io) (unread : BlockName → Bool) (peer : Writer) (pen : Option Nat)

/-- The copy after an event. A crash is a call that stops at a failing step and a reload after it; a
reload that fails replaces nothing. -/
def step (l : Loaded) : Event → Loaded
  | .edit deps body => { l with doc := l.doc.commit deps body }
  | .flush io => { l with store := (l.store.flush io l.doc).2 }
  | .absorb io name bytes =>
      { l with
        doc := (l.store.absorb io l.doc name bytes).2.1
        store := (l.store.absorb io l.doc name bytes).2.2 }
  | .compact io => { l with store := (l.store.compact io l.doc).2 }
  | .recordImport report => { l with store := l.store.recordImport report }
  | .wireMerge io bytes =>
      match l.doc.mergeReport bytes with
      | .error _ => l
      | .ok (report, doc) =>
          { l with doc := doc, store := (l.store.keepMerged io l.doc.version doc report).2 }
  | .reload io unread peer pen =>
      match load io unread l.store.dir peer pen l.pile with
      | .error _ => l
      | .ok loaded => loaded.reopened l.store.stamp

/-- This operation is in another block file already, or in the block that comes. -/
def Written (s : BlockStore) (name : BlockName) (bytes : Bytes) (o : SyncOp) : Prop :=
  (∃ other ops, other ≠ name ∧ s.dir.blocks.lookup other = some (some ops) ∧ o ∈ ops) ∨
    ∃ ops, bytes = some ops ∧ o ∈ ops

/-- A foreign block is written only when each operation the document holds or has parked is written;
where the ledger then fails, only those `on_disk` covers need to be. -/
def Unhurried (l : Loaded) : Event → Prop
  | .absorb io name bytes =>
      io.makeDir = none → io.writeBlock = none → ∀ o, o ∈ l.doc.applied ∨ o ∈ l.doc.parked →
        (io.saveLedger = none ∨ o.counter < l.store.onDisk.upTo o.writer) → Written l.store name bytes o
  | _ => True

/-- One event of a run whose foreign blocks wait. -/
def Step (l l' : Loaded) : Prop := ∃ e, Unhurried l e ∧ l' = step l e

/-- `on_disk` keeps its word: what it covers is in block files, what it does not cover the next
successful flush writes, and a reload after that flush has lost nothing. -/
structure Accounted (l : Loaded) : Prop where
  /-- Every operation `on_disk` covers is contained in some block file. -/
  named : ∀ w n, n < l.store.onDisk.upTo w →
    ∃ o, o.writer = w ∧ o.counter = n ∧ o ∈ l.doc.applied ∧ l.store.dir.Has o
  /-- An operation the document holds is above `on_disk` or readable from disk. -/
  covered : ∀ o ∈ l.doc.applied, o.counter < l.store.onDisk.upTo o.writer → l.store.dir.Has o
  /-- After a successful flush every operation the document holds is in a block file. -/
  flushed : ∀ io r s, l.store.flush io l.doc = (.ok r, s) → ∀ o ∈ l.doc.applied, s.dir.Has o
  /-- A reload after a successful flush reaches the live document; where names are unique, it holds
  every operation of it. -/
  reloaded : ∀ io r s, l.store.flush io l.doc = (.ok r, s) →
    ∀ io' peer pen loaded, load io' (fun _ => false) s.dir peer pen l.pile = .ok loaded →
      (∀ w, reach l.doc.applied w ≤ reach loaded.doc.applied w) ∧
        (Coherent {o | s.dir.Has o} → ∀ o ∈ l.doc.applied, o ∈ loaded.doc.applied)

/-! ### The invariant -/

/-- `on_disk` lies within the live version, and what it covers is in block files. -/
structure OnShelf (doc : LoroDoc) (s : BlockStore) : Prop where
  below : ∀ w, s.onDisk.upTo w ≤ reach doc.applied w
  covered : ∀ o ∈ doc.applied, o.counter < s.onDisk.upTo o.writer → s.dir.Has o

variable {o : SyncOp} {s s' : BlockStore} {name : BlockName} {bytes : Bytes} {doc : LoroDoc} {io : Io}
  {r : Except String (Option BlockName)} {before : SyncVersion} {report : MergeReport} {l : Loaded}

theorem has_of_blocks {dir dir' : Dir} (h : dir'.blocks = dir.blocks) (has : dir.Has o) : dir'.Has o := by
  obtain ⟨name, ops, hlookup, hmem⟩ := has
  exact ⟨name, ops, h ▸ hlookup, hmem⟩

/-- A block written under a free name hides no other. -/
theorem has_of_wrote_free (wrote : Wrote s name bytes s') (free : name ∉ s.dir.blocks) (has : s.dir.Has o) :
    s'.dir.Has o := by
  obtain ⟨s₁, books, rfl⟩ := wrote
  obtain ⟨other, ops, hlookup, hmem⟩ := has
  have ne : other ≠ name := by
    rintro rfl
    exact free (AList.lookup_isSome.mp (by rw [hlookup]; rfl))
  refine ⟨other, ops, ?_, hmem⟩
  show (s₁.dir.blocks.insert name bytes).lookup other = _
  rw [AList.lookup_insert_ne ne, books.blocks, hlookup]

/-- The operations of a block that was written are in a block file. -/
theorem has_of_wrote {ops : List SyncOp} (wrote : Wrote s name (some ops) s') (hmem : o ∈ ops) : s'.dir.Has o := by
  obtain ⟨s₁, books, rfl⟩ := wrote
  exact ⟨name, ops, AList.lookup_insert _, hmem⟩

theorem onDisk_of_wrote (wrote : Wrote s name bytes s') : s'.onDisk = s.onDisk := by
  obtain ⟨s₁, books, rfl⟩ := wrote
  exact books.onDisk

theorem OnShelf.of_books (h : OnShelf doc s) (blocks : s'.dir.blocks = s.dir.blocks) (onDisk : s'.onDisk = s.onDisk) :
    OnShelf doc s' := by
  refine ⟨?_, ?_⟩
  · rw [onDisk]
    exact h.below
  · rw [onDisk]
    exact fun o ho lt => has_of_blocks blocks (h.covered o ho lt)

/-- When the whole live version counts as on disk, everything held must be in block files. -/
theorem OnShelf.of_all (all : ∀ o ∈ doc.applied, s.dir.Has o) (onDisk : s.onDisk = doc.version) : OnShelf doc s := by
  refine ⟨fun w => ?_, fun o ho _ => all o ho⟩
  rw [onDisk, LoroDoc.upTo_version]

/-- A document that has grown: what it gained lies above `on_disk`. -/
theorem OnShelf.grow {doc' : LoroDoc} (h : OnShelf doc s) (reaches : ∀ w, reach doc.applied w ≤ reach doc'.applied w)
    (same : ∀ o ∈ doc'.applied, Held doc.applied o → o ∈ doc.applied) : OnShelf doc' s := by
  refine ⟨fun w => Nat.le_trans (h.below w) (reaches w), fun o ho lt => ?_⟩
  exact h.covered o (same o ho (Nat.lt_of_lt_of_le lt (h.below o.writer))) lt

/-- Taking operations in keeps, under every name already held, the operation already held. -/
theorem mem_of_held_takeOps {ops : List SyncOp} (ho : o ∈ (doc.takeOps ops).applied) (held : Held doc.applied o) :
    o ∈ doc.applied := by
  obtain ⟨o', ho', hw, hc⟩ := doc.causal.exists_of_lt held
  have same := (doc.takeOps ops).causal.unique (doc.subset_takeOps ops ho') ho
    (by simp [Op.id, hw, hc])
  exact same ▸ ho'

theorem OnShelf.takeOps (h : OnShelf doc s) (ops : List SyncOp) : OnShelf (doc.takeOps ops) s :=
  h.grow (doc.reach_le_takeOps ops) fun _ ho held => mem_of_held_takeOps ho held

theorem OnShelf.commit (h : OnShelf doc s) (deps : List (Writer × Nat)) (body : Nat) :
    OnShelf (doc.commit deps body) s := by
  rcases doc.commit_cases deps body with same | ⟨ready, happlied, _⟩
  · rw [same]
    exact h
  · refine h.grow ?_ ?_
    · intro w
      rw [happlied]
      exact reach_le_append _ _ w
    · intro o ho held
      rw [happlied] at ho
      rcases List.mem_append.mp ho with old | new
      · exact old
      · -- the new operation takes the first counter that is not held
        rw [List.mem_singleton.mp new, Held, ready.1] at held
        exact absurd held (Nat.lt_irrefl _)

/-- A flush hides no block file. -/
theorem has_flush (hflush : s.flush io doc = (r, s')) (has : s.dir.Has o) : s'.dir.Has o := by
  rcases flush_cases hflush with ⟨_, _, rfl⟩ | ⟨_, _, books⟩ |
    ⟨seq, s₁, free, wrote, ⟨_, _, rfl⟩ | ⟨_, rfl⟩⟩
  · exact has
  · exact has_of_blocks books.blocks has
  · exact (has_of_wrote_free wrote free has :)
  · exact (has_of_wrote_free wrote free has :)

/-- What `on_disk` covers was in block files, and the delta a flush writes is the rest. -/
theorem OnShelf.all_of_wrote {s₁ : BlockStore} {seq : Nat} (h : OnShelf doc s)
    (free : BlockName.block .u doc.peer seq ∉ s.dir.blocks)
    (wrote : Wrote s (.block .u doc.peer seq) (doc.changesSince s.onDisk) s₁) : ∀ o ∈ doc.applied, s₁.dir.Has o := by
  intro o ho
  by_cases lt : o.counter < s.onDisk.upTo o.writer
  · exact has_of_wrote_free wrote free (h.covered o ho lt)
  · exact has_of_wrote wrote (mem_since.mpr ⟨ho, Nat.le_of_not_lt lt⟩)

/-- A flush keeps the invariant. -/
theorem OnShelf.flush {doc : LoroDoc} {s s' : BlockStore} {io : Io} {r : Except String (Option BlockName)}
    (h : OnShelf doc s) (hflush : s.flush io doc = (r, s')) : OnShelf doc s' := by
  rcases flush_cases hflush with ⟨_, _, rfl⟩ | ⟨_, _, books⟩ | ⟨seq, s₁, free, wrote, outcome⟩
  · exact h
  · exact h.of_books books.blocks books.onDisk
  · have all := h.all_of_wrote free wrote
    rcases outcome with ⟨_, _, rfl⟩ | ⟨_, rfl⟩
    · refine ⟨?_, fun o ho _ => all o ho⟩
      rw [onDisk_of_wrote wrote]
      exact h.below
    · exact .of_all all rfl

/-- A flush that touches the block files leaves everything held in them. -/
theorem OnShelf.flush_blocks (h : OnShelf doc s) (hflush : s.flush io doc = (r, s')) :
    s'.dir.blocks = s.dir.blocks ∨ ∀ o ∈ doc.applied, s'.dir.Has o := by
  rcases flush_cases hflush with ⟨_, _, rfl⟩ | ⟨_, _, books⟩ |
    ⟨seq, s₁, free, wrote, ⟨_, _, rfl⟩ | ⟨_, rfl⟩⟩
  · exact Or.inl rfl
  · exact Or.inl books.blocks
  · exact Or.inr (h.all_of_wrote free wrote)
  · have all := h.all_of_wrote free wrote
    exact Or.inr all

/-- A flush that succeeds leaves everything held in block files, and `on_disk` says so. -/
theorem OnShelf.flush_ok {name : Option BlockName} (h : OnShelf doc s) (hflush : s.flush io doc = (.ok name, s')) :
    (∀ o ∈ doc.applied, s'.dir.Has o) ∧ ∀ w, s'.onDisk.upTo w = reach doc.applied w := by
  rcases flush_cases hflush with ⟨same, _, rfl⟩ | ⟨_, hr, _⟩ |
    ⟨seq, s₁, free, wrote, ⟨_, hr, _⟩ | ⟨_, rfl⟩⟩
  · have reached : ∀ w, s'.onDisk.upTo w = reach doc.applied w := by
      intro w
      rw [← VersionVector.same_iff.mp same, LoroDoc.upTo_version]
    refine ⟨fun o ho => h.covered o ho ?_, reached⟩
    rw [reached]
    exact doc.causal.held ho
  · cases hr
  · cases hr
  · have all := h.all_of_wrote free wrote
    exact ⟨all, fun w => doc.upTo_version w⟩

/-- Keeping a merge changes no accounting before its flush. -/
private theorem keepMerged_books (io : Io) (before : SyncVersion) (doc : LoroDoc)
    (report : MergeReport) (s : BlockStore) :
    ((s.recordImport report).tookIn io before doc).2.dir.blocks = s.dir.blocks ∧
      ((s.recordImport report).tookIn io before doc).2.onDisk = s.onDisk :=
  have h := tookIn_books io before doc (s.recordImport report)
  ⟨h.1, h.2.1⟩

theorem OnShelf.keepMerged (h : OnShelf doc s) (hkeep : s.keepMerged io before doc report = (r, s')) :
    OnShelf doc s' := by
  obtain ⟨blocks, onDisk⟩ := keepMerged_books io before doc report s
  exact (h.of_books blocks onDisk).flush hkeep

theorem OnShelf.keepMerged_ok {name : Option BlockName} (h : OnShelf doc s)
    (hkeep : s.keepMerged io before doc report = (.ok name, s')) :
    (∀ o ∈ doc.applied, s'.dir.Has o) ∧ ∀ w, s'.onDisk.upTo w = reach doc.applied w := by
  obtain ⟨blocks, onDisk⟩ := keepMerged_books io before doc report s
  exact (h.of_books blocks onDisk).flush_ok hkeep

theorem has_keepMerged (hkeep : s.keepMerged io before doc report = (r, s')) (has : s.dir.Has o) : s'.dir.Has o := by
  obtain ⟨blocks, _⟩ := keepMerged_books io before doc report s
  exact has_flush hkeep (has_of_blocks blocks has)

/-- A compaction keeps the invariant: the snapshot holds everything the document holds. -/
theorem OnShelf.compact {r : Except String BlockName} (h : OnShelf doc s) (hcompact : s.compact io doc = (r, s')) :
    OnShelf doc s' := by
  rcases compact_cases hcompact with ⟨why, rfl, books⟩ | ⟨path, s₁, snapshot, onDisk, outcome⟩
  · exact h.of_books books.blocks books.onDisk
  · have all : ∀ o ∈ doc.applied, s₁.dir.Has o := fun o ho => ⟨path, doc.applied, snapshot, ho⟩
    rcases outcome with ⟨why, rfl, rfl⟩ | ⟨rfl, rfl⟩
    · refine ⟨?_, fun o ho _ => all o ho⟩
      rw [onDisk]
      exact h.below
    · exact .of_all all rfl

/-- Taking in a foreign block that cannot be written changes no books. -/
theorem absorb_unwritten {io : Io} {doc : LoroDoc} {s : BlockStore} {name : BlockName} {bytes : Bytes}
    (fails : ¬ (io.makeDir = none ∧ io.writeBlock = none)) :
    (s.absorb io doc name bytes).2.2.dir.blocks = s.dir.blocks ∧
      (s.absorb io doc name bytes).2.2.onDisk = s.onDisk := by
  unfold BlockStore.absorb
  split
  · exact ⟨rfl, rfl⟩
  · split
    · rename_i made
      exact ⟨(makeDir_books made).blocks, (makeDir_books made).onDisk⟩
    · rename_i made
      dsimp only
      split
      · exact ⟨(makeDir_books made).blocks, (makeDir_books made).onDisk⟩
      · rename_i written
        refine absurd ⟨?_, written⟩ fails
        unfold BlockStore.makeDir at made
        split at made
        · cases made
        · assumption

/-- And where the ledger cannot be saved, nothing more counts as on disk. -/
theorem absorb_unsaved (fails : io.saveLedger ≠ none) : (s.absorb io doc name bytes).1 ≠ .ok () := by
  obtain ⟨why, failed⟩ := Option.ne_none_iff_exists'.mp fails
  unfold BlockStore.absorb
  split
  · rintro ⟨⟩
  · split
    · rintro ⟨⟩
    · dsimp only
      split
      · rintro ⟨⟩
      · rw [settleLedger, failed]
        rintro ⟨⟩

/-- Taking in a foreign block keeps the invariant when what has to be is written. -/
theorem OnShelf.absorb (h : OnShelf l.doc l.store) (unhurried : Unhurried l (.absorb io name bytes)) :
    OnShelf (step l (.absorb io name bytes)).doc (step l (.absorb io name bytes)).store := by
  simp only [step]
  rcases absorb_cases (Prod.eta (l.store.absorb io l.doc name bytes)).symm with
    ⟨why, _, _, doc, store⟩ | ⟨ops, rfl, doc, outcome⟩
  · rw [doc, store]
    exact h
  rw [doc]
  by_cases writes : io.makeDir = none ∧ io.writeBlock = none
  · have origin {o : SyncOp} (ho : o ∈ (l.doc.takeOps ops).applied)
        (asked : io.saveLedger = none ∨ o.counter < l.store.onDisk.upTo o.writer) :
        Written l.store name (some ops) o := by
      rcases LoroDoc.mem_of_mem_takeOps ho with old | wait | new
      · exact unhurried writes.1 writes.2 o (.inl old) asked
      · exact unhurried writes.1 writes.2 o (.inr wait) asked
      · exact .inr ⟨ops, rfl, new⟩
    rcases outcome with ⟨why, _, books⟩ | ⟨s₁, wrote, outcome⟩
    · exact (h.takeOps ops).of_books books.blocks books.onDisk
    · have there {o : SyncOp} (is : Written l.store name (some ops) o) : s₁.dir.Has o := by
        obtain ⟨other, ops', ne, hlookup, hmem⟩ | ⟨_, same, new⟩ := is
        · obtain ⟨s₂, books, rfl⟩ := wrote
          refine ⟨other, ops', ?_, hmem⟩
          show (s₂.dir.blocks.insert name (some ops)).lookup other = _
          rw [AList.lookup_insert_ne ne, books.blocks]
          exact hlookup
        · cases same
          exact has_of_wrote wrote new
      rcases outcome with ⟨why, _, store⟩ | ⟨done, store⟩ <;> rw [store]
      · have onDisk := onDisk_of_wrote wrote
        refine ⟨?_, fun o ho covered => there (origin ho (.inr (onDisk ▸ covered :)))⟩
        rw [onDisk]
        exact (h.takeOps ops).below
      · have saved : io.saveLedger = none := not_not.mp fun fails => absorb_unsaved fails done
        exact .of_all (fun o ho => there (origin ho (.inl saved))) (congrArg LoroDoc.version doc)
  · obtain ⟨blocks, onDisk⟩ := @absorb_unwritten io l.doc l.store name (some ops) writes
    exact (h.takeOps ops).of_books blocks onDisk

theorem OnShelf.load {io : Io} {unread : BlockName → Bool} {dir : Dir} {peer : Writer}
    {pen pile : Option Nat} {loaded : Loaded}
    (h : Sync.load io unread dir peer pen pile = .ok loaded) : OnShelf loaded.doc loaded.store := by
  obtain ⟨_, hblocks, honDisk, _, _⟩ := load_cases h
  exact .of_all (fun o ho => has_of_blocks hblocks (load_has h (Or.inl ho))) honDisk

theorem OnShelf.reopened (h : OnShelf l.doc l.store) (stamp : Bool) :
    OnShelf (l.reopened stamp).doc (l.reopened stamp).store := by
  obtain ⟨_, _, is⟩ := reopened_eq stamp l
  rw [is]
  exact h.of_books rfl rfl

/-- Step lemma: every event of a run whose foreign blocks wait keeps the invariant. -/
theorem onShelf_step {e : Event} (unhurried : Unhurried l e) (h : OnShelf l.doc l.store) :
    OnShelf (step l e).doc (step l e).store := by
  cases e with
  | edit deps body => exact h.commit deps body
  | flush io => exact h.flush rfl
  | absorb io name bytes => exact h.absorb unhurried
  | compact io => exact h.compact rfl
  | recordImport report => exact h.of_books rfl rfl
  | wireMerge io bytes =>
      cases hmerge : l.doc.mergeReport bytes with
      | error why => simpa [step, hmerge] using h
      | ok merged =>
          obtain ⟨report, doc⟩ := merged
          simp only [step, hmerge]
          obtain ⟨ops, _, rfl, rfl⟩ := LoroDoc.mergeReport_cases hmerge
          exact (h.takeOps ops).keepMerged rfl
  | reload io unread peer pen =>
      cases hload : load io unread l.store.dir peer pen l.pile with
      | error why => simpa [step, hload] using h
      | ok loaded =>
          simp only [step, hload]
          exact (OnShelf.load hload).reopened l.store.stamp

/-- Run lemma: the invariant holds all along. -/
theorem onShelf_run {l' : Loaded} (run : Relation.ReflTransGen Step l l') (h : OnShelf l.doc l.store) :
    OnShelf l'.doc l'.store := by
  induction run with
  | refl => exact h
  | tail _ hstep ih =>
      obtain ⟨e, unhurried, rfl⟩ := hstep
      exact onShelf_step unhurried ih

theorem Accounted.of_onShelf (h : OnShelf l.doc l.store) : Accounted l := by
  have flushed : ∀ io r s, l.store.flush io l.doc = (.ok r, s) → ∀ o ∈ l.doc.applied, s.dir.Has o :=
    fun io r s hflush => (h.flush_ok hflush).1
  refine ⟨fun w n lt => ?_, h.covered, flushed, ?_⟩
  · obtain ⟨o, ho, rfl, rfl⟩ := l.doc.causal.exists_of_lt (Nat.lt_of_lt_of_le lt (h.below w))
    exact ⟨o, rfl, rfl, ho, h.covered o ho lt⟩
  · intro io r s hflush io' peer pen loaded hload
    have has := flushed io r s hflush
    have reaches := load_reaches hload l.doc.causal has
    refine ⟨reaches, fun coherent => ?_⟩
    exact subset_of_reach_le coherent loaded.doc.causal (fun o ho => load_has hload (Or.inl ho))
      l.doc.causal has reaches

/-- **Durability.** In every state a loaded copy reaches by local edits, flushes, foreign blocks taken
in when nothing waits to be written, compactions, recorded imports, wire merges and reloads, any of
them failing at any file step, `on_disk` keeps its word. -/
theorem accounted_of_run {io : Io} {unread : BlockName → Bool} {dir : Dir} {peer : Writer}
    {pen pile : Option Nat} {l l' : Loaded}
    (opened : load io unread dir peer pen pile = .ok l ∨ loadPile io unread dir peer pen pile = .ok l)
    (run : Relation.ReflTransGen Step l l') : Accounted l' := by
  refine .of_onShelf (onShelf_run run ?_)
  rcases opened with hload | hload
  · exact .load hload
  · obtain ⟨loaded, ran, rfl⟩ := loadPile_load hload
    exact (OnShelf.load ran).reopened true

/-! ### A foreign block taken in before a flush -/

/-- Writer 1 edits. -/
def edited : Loaded := step (opened .absent 1) (.edit [] 7)

/-- Writer 2's first block arrives. -/
def foreign : Event := .absorb {} (.block .u 2 0) (some [⟨2, 0, [], 9⟩])

/-- An edit flushed before the foreign block is taken in stays accounted for. -/
theorem accounted_flushed_first : Accounted (step (step edited (.flush {})) foreign) := by
  have waits : Unhurried (step edited (.flush {})) foreign := by
    intro _ _ o ho _
    have mine : o = ⟨1, 0, [], 7⟩ := by
      rcases ho with applied | parked
      · exact List.mem_singleton.mp applied
      · cases parked
    exact Or.inl ⟨.block .u 1 0, [⟨1, 0, [], 7⟩], by decide, rfl, by simp [mine]⟩
  exact accounted_of_run (.inl (load_opened .absent 1))
    (((Relation.ReflTransGen.refl.tail ⟨.edit [] 7, trivial, rfl⟩).tail
      ⟨.flush {}, trivial, rfl⟩).tail ⟨foreign, waits, rfl⟩)

/-- Without the flush `on_disk` covers the edit, and no block file holds it. -/
theorem absorb_counts_an_unwritten_edit :
    load {} (fun _ => false) (.fresh ['d']) 1 none none = .ok (opened .absent 1) ∧
      ¬ Accounted (step (step (opened .absent 1) (.edit [] 7)) foreign) := by
  refine ⟨load_opened .absent 1, fun accounted => ?_⟩
  obtain ⟨o, hw, _, _, name, ops, hlookup, hmem⟩ := accounted.named 1 0 (by decide)
  by_cases foreignName : name = .block .u 2 0
  · subst foreignName
    cases hlookup
    rw [List.mem_singleton.mp hmem] at hw
    cases hw
  · have gone : (step edited foreign).store.dir.blocks.lookup name = none :=
      AList.lookup_insert_ne foreignName
    cases gone.symm.trans hlookup

end Khor.Sync.Durability
