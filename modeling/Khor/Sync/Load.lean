/-
Module: Khor.Sync.Load
Purpose: Reading a document back from its directory: every listed block is merged into an empty
  document under the leased name, unreadable ones are counted, and what had to wait is recorded. The
  invariant of the pass says where each operation came from and that no block read is lost.
Trusted boundary: none
Main exports: load, loadPile, Accounts, readBlocks_accounts, load_cases
-/
import Khor.Sync.Store

namespace Khor.Sync

/-- One pass over the block files of a directory. -/
structure Imported where
  doc : LoroDoc
  names : Finset BlockName
  broken : List BlockName
  pending : Pending

/-- Read and merge one block file. A file that will not read, or that import refuses, is broken. -/
def readBlock (unread : BlockName → Bool) (acc : Imported)
    (entry : Sigma fun _ : BlockName => Bytes) : Imported :=
  if unread entry.1 then { acc with broken := acc.broken ++ [entry.1] }
  else
    match acc.doc.mergeReport entry.2 with
    | .error _ => { acc with broken := acc.broken ++ [entry.1] }
    | .ok (report, doc) =>
        { doc := doc
          names := insert entry.1 acc.names
          broken := acc.broken
          pending := rememberPending acc.pending report }

/-- `read_blocks`: every listed block, one after the other. -/
def readBlocks (unread : BlockName → Bool) (doc : LoroDoc)
    (entries : List (Sigma fun _ : BlockName => Bytes)) : Imported :=
  entries.foldl (readBlock unread) { doc := doc, names := ∅, broken := [], pending := ∅ }

/-- `load`: an empty document under the leased name, every block file merged into it, and the ledger
file written if this read learned a name it did not hold. -/
def load (io : Io) (unread : BlockName → Bool) (dir : Dir) (peer : Writer) (pen : Option Nat)
    (pile : Option Nat) : Except String Loaded :=
  let imported := readBlocks unread (LoroDoc.open peer) dir.blocks.entries
  let store : BlockStore :=
    { dir := dir
      onDisk := imported.doc.version
      ledger := dir.merged ∪ imported.names
      held := imported.names
      epoch := readEpoch dir
      stamp := false
      pen := pen.map fun k => (k, peer)
      retired := none
      pending := imported.pending }
  let loaded (store : BlockStore) : Loaded :=
    { store := store, doc := imported.doc, broken := imported.broken, pile := pile }
  if dir.isDir ∧ ¬ imported.names ⊆ dir.merged then
    match io.saveLedger with
    | some why => .error why
    | none => .ok (loaded store.saveLedger)
  else .ok (loaded store)

/-- What `load_pile` does behind its load: a pile with nothing in it yet starts in this build's epoch,
which its first write names. -/
def Loaded.begun (l : Loaded) : Loaded :=
  if l.store.epoch < EPOCH ∧ l.store.held = ∅ ∧ l.broken = [] then
    { l with store := { l.store with epoch := EPOCH, stamp := true } }
  else l

/-- `load_pile`, of a directory that was rebuilt before if it had to be. -/
def loadPile (io : Io) (unread : BlockName → Bool) (dir : Dir) (peer : Writer) (pen : Option Nat)
    (pile : Option Nat) : Except String Loaded :=
  (load io unread dir peer pen pile).map Loaded.begun

/-- A copy opened again by `load`, or by `load_pile` while it has written nothing: to a pile with
something in it the two do the same. -/
def Loaded.reopened (stamp : Bool) (l : Loaded) : Loaded := if stamp then l.begun else l

theorem begun_eq (l : Loaded) : ∃ epoch stamp,
    l.begun = { l with store := { l.store with epoch := epoch, stamp := stamp } } := by
  unfold Loaded.begun
  split
  · exact ⟨_, _, rfl⟩
  · exact ⟨l.store.epoch, l.store.stamp, rfl⟩

/-- However a copy is opened, only the epoch it speaks in differs. -/
theorem reopened_eq (stamp : Bool) (l : Loaded) : ∃ epoch stamp',
    l.reopened stamp = { l with store := { l.store with epoch := epoch, stamp := stamp' } } := by
  cases stamp with
  | false => exact ⟨l.store.epoch, l.store.stamp, rfl⟩
  | true => exact begun_eq l

/-- A copy of a directory with nothing in it but perhaps an epoch file, open under a name. -/
def opened (epochFile : EpochFile) (peer : Writer) : Loaded :=
  let dir := { Dir.fresh ['d'] with epochFile := epochFile }
  { store :=
      { dir := dir, onDisk := ∅, ledger := ∅, held := ∅, epoch := readEpoch dir, stamp := false,
        pen := none, retired := none, pending := ∅ }
    doc := .open peer
    broken := []
    pile := none }

theorem load_opened (epochFile : EpochFile) (peer : Writer) :
    load {} (fun _ => false) { Dir.fresh ['d'] with epochFile := epochFile } peer none none =
      .ok (opened epochFile peer) :=
  rfl

/-! ### What a read accounts for -/

/-- What a pass over `entries` has established so far. -/
structure Accounts (unread : BlockName → Bool) (entries : List (Sigma fun _ : BlockName => Bytes))
    (acc : Imported) : Prop where
  /-- Whatever the document holds or has parked was in a block. -/
  fromBlocks : ∀ o, o ∈ acc.doc.applied ∨ o ∈ acc.doc.parked →
    ∃ e ∈ entries, ∃ ops, e.2 = some ops ∧ o ∈ ops
  /-- Whatever was in a named block is held or parked. -/
  named : ∀ e ∈ entries, e.1 ∈ acc.names →
    ∃ ops, e.2 = some ops ∧ ∀ o ∈ ops, Held acc.doc.applied o ∨ o ∈ acc.doc.parked
  /-- A block that could be read and merged is named. -/
  read : ∀ e ∈ entries, unread e.1 = false → e.2 ≠ none → e.1 ∈ acc.names
  /-- A named block was listed. -/
  listed : ∀ name ∈ acc.names, ∃ e ∈ entries, e.1 = name
  known : ∀ o ∈ acc.doc.parked, Recorded acc.pending o
  settled : ∀ o ∈ acc.doc.parked, ¬ Ready acc.doc.applied o

variable {unread : BlockName → Bool} {io : Io} {dir : Dir} {peer : Writer} {pen pile : Option Nat} {loaded : Loaded}

theorem readBlock_accounts {seen : List (Sigma fun _ : BlockName => Bytes)} {acc : Imported}
    {e : Sigma fun _ : BlockName => Bytes} (fresh : ∀ e' ∈ seen, e'.1 ≠ e.1) (h : Accounts unread seen acc) :
    Accounts unread (seen ++ [e]) (readBlock unread acc e) := by
  -- a block that is not merged leaves everything but the broken list as it was
  have skipped : ∀ (bad : unread e.1 = true ∨ e.2 = none),
      Accounts unread (seen ++ [e]) { acc with broken := acc.broken ++ [e.1] } := by
    intro bad
    have unnamed : e.1 ∉ acc.names := by
      intro hn
      obtain ⟨e', he', same⟩ := h.listed e.1 hn
      exact fresh e' he' same
    refine ⟨?_, ?_, ?_, ?_, h.known, h.settled⟩
    · intro o ho
      obtain ⟨e', he', hops⟩ := h.fromBlocks o ho
      exact ⟨e', List.mem_append_left _ he', hops⟩
    · intro e' he' hn
      rcases List.mem_append.mp he' with old | last
      · exact h.named e' old hn
      · rw [List.mem_singleton.mp last] at hn
        exact absurd hn unnamed
    · intro e' he' hread hsome
      rcases List.mem_append.mp he' with old | last
      · exact h.read e' old hread hsome
      · rw [List.mem_singleton.mp last] at hread hsome
        rcases bad with hun | hnone
        · rw [hun] at hread
          cases hread
        · exact absurd hnone hsome
    · intro name hn
      obtain ⟨e', he', same⟩ := h.listed name hn
      exact ⟨e', List.mem_append_left _ he', same⟩
  unfold readBlock
  split
  · rename_i hun
    exact skipped (Or.inl hun)
  · cases hmerge : acc.doc.mergeReport e.2 with
    | error why =>
        apply skipped
        right
        cases hbytes : e.2 with
        | none => rfl
        | some ops => simp [hbytes, LoroDoc.mergeReport] at hmerge
    | ok merged =>
        obtain ⟨report, doc⟩ := merged
        obtain ⟨ops, hops, rfl, rfl⟩ := LoroDoc.mergeReport_cases hmerge
        refine ⟨?_, ?_, ?_, ?_, ?_, ?_⟩
        · intro o ho
          have origin : (o ∈ acc.doc.applied ∨ o ∈ acc.doc.parked) ∨ o ∈ ops := by
            rcases ho with applied | parked
            · rcases LoroDoc.mem_of_mem_takeOps applied with old | wait | new
              · exact Or.inl (Or.inl old)
              · exact Or.inl (Or.inr wait)
              · exact Or.inr new
            · rcases LoroDoc.mem_of_takeOps_parked parked with wait | new
              · exact Or.inl (Or.inr wait)
              · exact Or.inr new
          rcases origin with old | new
          · obtain ⟨e', he', hmem⟩ := h.fromBlocks o old
            exact ⟨e', List.mem_append_left _ he', hmem⟩
          · exact ⟨e, List.mem_append_right _ (List.mem_singleton_self _), ops, hops, new⟩
        · intro e' he' hn
          have carry : ∀ o, Held acc.doc.applied o ∨ o ∈ acc.doc.parked →
              Held (acc.doc.takeOps ops).applied o ∨ o ∈ (acc.doc.takeOps ops).parked := by
            intro o ho
            rcases ho with held | wait
            · exact Or.inl (Nat.lt_of_lt_of_le held (acc.doc.reach_le_takeOps ops o.writer))
            · exact acc.doc.held_or_parked_takeOps (Or.inl wait)
          rcases List.mem_append.mp he' with old | last
          · have hn' : e'.1 ∈ acc.names := by
              rcases Finset.mem_insert.mp hn with same | hn'
              · exact absurd same (fresh e' old)
              · exact hn'
            obtain ⟨ops', hops', hall⟩ := h.named e' old hn'
            exact ⟨ops', hops', fun o ho => carry o (hall o ho)⟩
          · rw [List.mem_singleton.mp last]
            exact ⟨ops, hops, fun o ho => acc.doc.held_or_parked_takeOps (Or.inr ho)⟩
        · intro e' he' hread hsome
          rcases List.mem_append.mp he' with old | last
          · exact Finset.mem_insert_of_mem (h.read e' old hread hsome)
          · rw [List.mem_singleton.mp last]
            exact Finset.mem_insert_self _ _
        · intro name hn
          rcases Finset.mem_insert.mp hn with same | old
          · exact ⟨e, List.mem_append_right _ (List.mem_singleton_self _), same.symm⟩
          · obtain ⟨e', he', same⟩ := h.listed name old
            exact ⟨e', List.mem_append_left _ he', same⟩
        · intro o ho
          apply recorded_rememberPending
          by_cases new : o ∈ ops
          · exact Or.inr (reported_spansOf (List.mem_filter.mpr ⟨ho, decide_eq_true new⟩))
          · exact Or.inl (h.known o ((LoroDoc.mem_of_takeOps_parked ho).resolve_right new))
        · intro o ho
          exact takeIn_settled ho

private theorem foldl_accounts {entries seen : List (Sigma fun _ : BlockName => Bytes)} {acc : Imported}
    (distinct : (seen ++ entries).NodupKeys) (h : Accounts unread seen acc) :
    Accounts unread (seen ++ entries) (entries.foldl (readBlock unread) acc) := by
  induction entries generalizing seen acc with
  | nil => simpa using h
  | cons e entries ih =>
      have fresh : ∀ e' ∈ seen, e'.1 ≠ e.1 := by
        intro e' he'
        have pairs := List.nodupKeys_iff_pairwise.mp distinct
        exact (List.pairwise_append.mp pairs).2.2 e' he' e (.head _)
      have step := ih (by simpa using distinct) (readBlock_accounts fresh h)
      simpa using step

/-- Reading a whole directory accounts for every entry of it. -/
theorem readBlocks_accounts (unread : BlockName → Bool) (peer : Writer)
    (blocks : AList (fun _ : BlockName => Bytes)) :
    Accounts unread blocks.entries (readBlocks unread (LoroDoc.open peer) blocks.entries) := by
  have start : Accounts unread []
      { doc := LoroDoc.open peer, names := ∅, broken := [], pending := ∅ } := by
    refine ⟨?_, ?_, ?_, ?_, ?_, ?_⟩ <;> intros <;> simp_all [LoroDoc.open]
  exact foldl_accounts (by simpa using blocks.nodupKeys) start

theorem readBlock_peer (unread : BlockName → Bool) (acc : Imported) (e : Sigma fun _ : BlockName => Bytes) :
    (readBlock unread acc e).doc.peer = acc.doc.peer := by
  unfold readBlock
  split
  · rfl
  · cases hmerge : acc.doc.mergeReport e.2 with
    | error why => rfl
    | ok merged =>
        obtain ⟨report, doc⟩ := merged
        obtain ⟨ops, _, rfl, rfl⟩ := LoroDoc.mergeReport_cases hmerge
        rfl

/-- The document read is written under the leased name. -/
theorem readBlocks_peer (unread : BlockName → Bool) (doc : LoroDoc)
    (entries : List (Sigma fun _ : BlockName => Bytes)) :
    (readBlocks unread doc entries).doc.peer = doc.peer := by
  have fold : ∀ (entries : List (Sigma fun _ : BlockName => Bytes)) (acc : Imported),
      (entries.foldl (readBlock unread) acc).doc.peer = acc.doc.peer := by
    intro entries
    induction entries with
    | nil => intro acc; rfl
    | cons e entries ih => intro acc; exact (ih _).trans (readBlock_peer unread acc e)
  exact fold entries _

section

variable (h : load io unread dir peer pen pile = .ok loaded)
include h

/-- What a load returns when it returns. -/
theorem load_cases :
    loaded.doc = (readBlocks unread (LoroDoc.open peer) dir.blocks.entries).doc ∧
      loaded.store.dir.blocks = dir.blocks ∧
      loaded.store.onDisk = loaded.doc.version ∧
      loaded.store.held = (readBlocks unread (LoroDoc.open peer) dir.blocks.entries).names ∧
      loaded.store.pending = (readBlocks unread (LoroDoc.open peer) dir.blocks.entries).pending := by
  unfold load at h
  simp only at h
  split at h
  · split at h
    · cases h
    · cases h
      exact ⟨rfl, rfl, rfl, rfl, rfl⟩
  · cases h
    exact ⟨rfl, rfl, rfl, rfl, rfl⟩

theorem load_broken : loaded.broken = (readBlocks unread (LoroDoc.open peer) dir.blocks.entries).broken := by
  unfold load at h
  simp only at h
  split at h
  · split at h
    · cases h
    · cases h
      rfl
  · cases h
    rfl

/-- A load knows what its directory's ledger lists and what it read. -/
theorem load_ledger : loaded.store.ledger = dir.merged ∪ loaded.store.held := by
  unfold load at h
  simp only at h
  split at h
  · split at h
    · cases h
    · cases h
      rfl
  · cases h
    rfl

/-- A load reads the epoch its directory names and leaves the epoch file alone. -/
theorem load_epoch :
    loaded.store.epoch = readEpoch dir ∧ loaded.store.dir.epochFile = dir.epochFile ∧
      loaded.store.stamp = false := by
  unfold load at h
  simp only at h
  split at h
  · split at h
    · cases h
    · cases h
      exact ⟨rfl, rfl, rfl⟩
  · cases h
    exact ⟨rfl, rfl, rfl⟩

end

/-- Opening a copy again leaves it in its epoch. -/
theorem BlockStore.InEpoch.reopened {s : BlockStore} (h : s.InEpoch)
    (hload : load io unread s.dir peer pen pile = .ok loaded) :
    (loaded.reopened s.stamp).store.InEpoch ∧ (loaded.reopened s.stamp).store.epoch = s.epoch := by
  obtain ⟨hepoch, hfile, hstamp⟩ := load_epoch hload
  rcases h with ⟨stamp, named⟩ | ⟨stamp, epoch, file, empty⟩
  · rw [stamp]
    have same : loaded.store.epoch = s.epoch := hepoch.trans named
    exact ⟨.inl ⟨hstamp, (readEpoch_of_file hfile).trans hepoch.symm⟩, same⟩
  · obtain ⟨_, hblocks, _, hheld, _⟩ := load_cases hload
    have old : loaded.store.epoch < EPOCH := by
      rw [hepoch, readEpoch, file]
      decide
    have nothing : loaded.store.held = ∅ ∧ loaded.broken = [] := by
      rw [hheld, load_broken hload, empty]
      exact ⟨rfl, rfl⟩
    rw [stamp, Loaded.reopened, if_pos rfl, Loaded.begun, if_pos ⟨old, nothing⟩]
    exact ⟨.inr ⟨rfl, rfl, hfile.trans file, hblocks.trans empty⟩, epoch.symm⟩

theorem loadPile_load {l : Loaded} (h : loadPile io unread dir peer pen pile = .ok l) :
    ∃ loaded, load io unread dir peer pen pile = .ok loaded ∧ l = loaded.reopened true := by
  unfold loadPile at h
  cases hload : load io unread dir peer pen pile with
  | error why =>
      rw [hload] at h
      cases h
  | ok loaded =>
      rw [hload] at h
      cases h
      exact ⟨loaded, rfl, rfl⟩

/-- A new pile takes this build's epoch. -/
theorem loadPile_epoch {l : Loaded} (h : loadPile io unread dir peer pen pile = .ok l)
    (file : dir.epochFile = .absent) (empty : dir.blocks = ∅) :
    ∃ loaded, load io unread dir peer pen pile = .ok loaded ∧ l = loaded.reopened true ∧
      l.store.InEpoch ∧ l.store.epoch = EPOCH := by
  obtain ⟨loaded, hload, rfl⟩ := loadPile_load h
  have new : BlockStore.InEpoch { loaded.store with dir := dir, epoch := EPOCH, stamp := true } :=
    .inr ⟨rfl, rfl, file, empty⟩
  exact ⟨loaded, hload, rfl, new.reopened hload⟩

/-- A load writes under the leased name and touches no pen. -/
theorem load_pen (h : load io unread dir peer pen pile = .ok loaded) :
    loaded.doc.peer = peer ∧ loaded.store.dir.pens = dir.pens ∧
      loaded.store.pen = pen.map fun k => (k, peer) := by
  have named : loaded.doc.peer = peer := by
    rw [(load_cases h).1]
    exact readBlocks_peer unread (LoroDoc.open peer) dir.blocks.entries
  unfold load at h
  simp only at h
  split at h
  · split at h
    · cases h
    · cases h
      exact ⟨named, rfl, rfl⟩
  · cases h
    exact ⟨named, rfl, rfl⟩

/-- An operation the loaded document holds is in a block file. -/
theorem load_has (h : load io unread dir peer pen pile = .ok loaded) {o : SyncOp}
    (ho : o ∈ loaded.doc.applied ∨ o ∈ loaded.doc.parked) : dir.Has o := by
  rw [(load_cases h).1] at ho
  obtain ⟨e, he, ops, hops, hmem⟩ := (readBlocks_accounts unread peer dir.blocks).fromBlocks o ho
  exact ⟨e.1, ops, AList.mem_lookup_iff.mpr (hops ▸ he), hmem⟩

/-- A load that reads every block reaches every causal log whose operations are in block files. -/
theorem load_reaches (h : load io (fun _ => false) dir peer pen pile = .ok loaded) {log : List SyncOp}
    (hlog : CausalLog log) (has : ∀ o ∈ log, dir.Has o) (w : Writer) : reach log w ≤ reach loaded.doc.applied w := by
  rw [(load_cases h).1]
  have acc := readBlocks_accounts (fun _ => false) peer dir.blocks
  refine reach_le_of_accounted hlog acc.settled (fun o ho => ?_) w
  obtain ⟨name, ops, hlookup, hmem⟩ := has o ho
  have listed : (⟨name, some ops⟩ : Sigma fun _ : BlockName => Bytes) ∈ dir.blocks.entries :=
    AList.mem_lookup_iff.mp hlookup
  have named := acc.read _ listed rfl (by simp)
  obtain ⟨ops', hops', hall⟩ := acc.named _ listed named
  cases hops'
  exact hall o hmem

end Khor.Sync
