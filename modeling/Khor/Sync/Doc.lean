/-
Module: Khor.Sync.Doc
Purpose: The document the block store and the wire work on. A document is the causal log of the
  operations it has applied beside the ones it has parked; it exports exactly what a version does not
  cover, applies an imported operation once everything it depends on is held, and parks it until then.
  Bytes stand for what an import makes of them.
Trusted boundary: loro's import and export, as the operation-set semantics stated here
Main exports: Writer, SyncOp, Bytes, LoroDoc, LoroDoc.commit
-/
import Khor.Lib.CausalLog

namespace Khor.Sync

/-- A writer name, the `u64` peer id of loro. -/
abbrev Writer := Nat

abbrev SyncOp := Op Writer Nat

abbrev SyncVersion := VersionVector Writer

/-- A block's or a delta's bytes, read as `import` reads them: the operations they carry, or `none`
when they are not an import. -/
abbrev Bytes := Option (List SyncOp)

/-- One writer's half-open operation range reported by an import. -/
structure ImportSpan where
  writer : Writer
  start : Nat
  stop : Nat

/-- The applied and the still pending ranges of one import. -/
structure MergeReport where
  applied : List ImportSpan
  pending : List ImportSpan

/-- Extend the ranges, one per writer, to include an operation. -/
def widen : List ImportSpan → SyncOp → List ImportSpan
  | [], o => [{ writer := o.writer, start := o.counter, stop := o.counter + 1 }]
  | span :: spans, o =>
      if span.writer = o.writer then
        { span with start := min span.start o.counter, stop := max span.stop (o.counter + 1) } :: spans
      else
        span :: widen spans o

/-- The ranges of a list of operations. -/
def spansOf (ops : List SyncOp) : List ImportSpan :=
  ops.foldl widen []

/-- A replicated document: the operations applied, in an order that respects their dependencies, the
operations parked until theirs arrive, and the name local operations are written under. -/
structure LoroDoc where
  peer : Writer
  applied : List SyncOp
  parked : List SyncOp
  causal : CausalLog applied

namespace LoroDoc

/-- `Doc::open`: an empty document under a writer name. -/
def «open» (peer : Writer) : LoroDoc :=
  { peer := peer, applied := [], parked := [], causal := .nil }

/-- `Doc::peer_id`. -/
def peerId (d : LoroDoc) : Writer := d.peer

/-- `Doc::version`. -/
def version (d : LoroDoc) : SyncVersion := Khor.version d.applied

/-- `Doc::changes_since`: what this document has beyond `theirs`. Parked operations are not exported. -/
def changesSince (d : LoroDoc) (theirs : SyncVersion) : Bytes :=
  some (since d.applied theirs)

/-- `Doc::snapshot`: everything applied. -/
def snapshot (d : LoroDoc) : Bytes := some d.applied

/-- The operation a local edit writes next: the writer's next counter, over what is held. -/
def nextOp (d : LoroDoc) (deps : List (Writer × Nat)) (body : Nat) : SyncOp :=
  { writer := d.peer, counter := reach d.applied d.peer, deps := deps, body := body }

/-- A local edit. It can only build on operations the document holds. -/
def commit (d : LoroDoc) (deps : List (Writer × Nat)) (body : Nat) : LoroDoc :=
  if h : Ready d.applied (d.nextOp deps body) then
    { d with applied := d.applied ++ [d.nextOp deps body], causal := d.causal.snoc h }
  else d

/-- The document after `ops` are imported. -/
def takeOps (d : LoroDoc) (ops : List SyncOp) : LoroDoc :=
  { d with
    applied := (takeIn d.applied d.parked ops).1
    parked := (takeIn d.applied d.parked ops).2
    causal := takeIn_causal d.causal }

/-- What an import of `ops` reports: the operations it applied, earlier parked ones included, and
those of its own that are still waiting. -/
def reportOf (d : LoroDoc) (ops : List SyncOp) : MergeReport :=
  { applied := spansOf ((d.takeOps ops).applied.drop d.applied.length)
    pending := spansOf ((d.takeOps ops).parked.filter (· ∈ ops)) }

/-- `Doc::merge_report`. -/
def mergeReport (d : LoroDoc) (bytes : Bytes) : Except String (MergeReport × LoroDoc) :=
  match bytes with
  | none => .error "cannot merge"
  | some ops => .ok (d.reportOf ops, d.takeOps ops)

variable {d : LoroDoc} {o : SyncOp} {ops : List SyncOp}

/-- The one way a merge succeeds. -/
theorem mergeReport_cases {d' : LoroDoc} {bytes : Bytes} {report : MergeReport}
    (h : d.mergeReport bytes = .ok (report, d')) :
    ∃ ops, bytes = some ops ∧ d' = d.takeOps ops ∧ report = d.reportOf ops := by
  cases bytes with
  | none => simp [mergeReport] at h
  | some ops =>
      simp only [mergeReport, Except.ok.injEq, Prod.mk.injEq] at h
      exact ⟨ops, rfl, h.2.symm, h.1.symm⟩

section

variable (d : LoroDoc)

@[simp] theorem upTo_version (w : Writer) : d.version.upTo w = reach d.applied w :=
  Khor.upTo_version d.causal w

@[simp] theorem get_version (w : Writer) : d.version.get w = (reach d.applied w : Int) :=
  Khor.get_version d.causal w

@[simp] theorem takeOps_peer (ops : List SyncOp) : (d.takeOps ops).peer = d.peer := rfl

theorem commit_peer (deps : List (Writer × Nat)) (body : Nat) : (d.commit deps body).peer = d.peer := by
  unfold commit
  split <;> rfl

/-- A local edit adds at most its own next operation. -/
theorem commit_cases (deps : List (Writer × Nat)) (body : Nat) :
    d.commit deps body = d ∨
      (Ready d.applied (d.nextOp deps body) ∧ (d.commit deps body).applied = d.applied ++ [d.nextOp deps body] ∧
        (d.commit deps body).parked = d.parked) := by
  unfold commit
  split
  · exact Or.inr ⟨‹_›, rfl, rfl⟩
  · exact Or.inl rfl

theorem reach_le_takeOps (ops : List SyncOp) (w : Writer) :
    reach d.applied w ≤ reach (d.takeOps ops).applied w :=
  reach_le_takeIn d.causal w

theorem subset_takeOps (ops : List SyncOp) (h : o ∈ d.applied) : o ∈ (d.takeOps ops).applied :=
  subset_takeIn d.causal h

end

theorem mem_of_mem_takeOps (h : o ∈ (d.takeOps ops).applied) : o ∈ d.applied ∨ o ∈ d.parked ∨ o ∈ ops :=
  mem_of_mem_takeIn d.causal h

theorem mem_of_takeOps_parked (h : o ∈ (d.takeOps ops).parked) : o ∈ d.parked ∨ o ∈ ops :=
  mem_of_parked d.causal h

/-- What a successful import leaves out is parked, never lost. -/
theorem held_or_parked_takeOps (d : LoroDoc) (h : o ∈ d.parked ∨ o ∈ ops) :
    Held (d.takeOps ops).applied o ∨ o ∈ (d.takeOps ops).parked :=
  held_or_parked d.causal h

end LoroDoc

/-! ### Ranges cover what they report -/

/-- Some range of its writer ends above the operation. -/
def Reported (spans : List ImportSpan) (o : SyncOp) : Prop :=
  ∃ span ∈ spans, span.writer = o.writer ∧ o.counter < span.stop

theorem reported_widen_self (spans : List ImportSpan) (o : SyncOp) : Reported (widen spans o) o := by
  induction spans with
  | nil => exact ⟨_, List.mem_singleton_self _, rfl, Nat.lt_succ_self _⟩
  | cons span spans ih =>
      unfold widen
      split
      · rename_i same
        refine ⟨_, .head _, same, ?_⟩
        exact Nat.lt_of_lt_of_le (Nat.lt_succ_self _) (Nat.le_max_right _ _)
      · obtain ⟨found, hfound, hspan⟩ := ih
        exact ⟨found, .tail _ hfound, hspan⟩

variable {o : SyncOp} {ops : List SyncOp}

theorem Reported.widen {spans : List ImportSpan} (h : Reported spans o) (o' : SyncOp) :
    Reported (widen spans o') o := by
  induction spans with
  | nil => obtain ⟨_, hmem, _⟩ := h; cases hmem
  | cons span spans ih =>
      obtain ⟨found, hfound, hw, hlt⟩ := h
      unfold Sync.widen
      rcases List.mem_cons.mp hfound with rfl | htail
      · split
        · exact ⟨_, .head _, hw, Nat.lt_of_lt_of_le hlt (Nat.le_max_left _ _)⟩
        · exact ⟨_, .head _, hw, hlt⟩
      · split
        · exact ⟨found, .tail _ htail, hw, hlt⟩
        · obtain ⟨g, hg, hspan⟩ := ih ⟨found, htail, hw, hlt⟩
          exact ⟨g, .tail _ hg, hspan⟩

private theorem reported_foldl {spans : List ImportSpan} (h : Reported spans o ∨ o ∈ ops) :
    Reported (ops.foldl widen spans) o := by
  induction ops generalizing spans with
  | nil => exact h.resolve_right (List.not_mem_nil)
  | cons head tail ih =>
      apply ih
      rcases h with old | hmem
      · exact Or.inl (old.widen head)
      · rcases List.mem_cons.mp hmem with rfl | htail
        · exact Or.inl (reported_widen_self spans o)
        · exact Or.inr htail

/-- Every operation lies below the end of its writer's range. -/
theorem reported_spansOf (h : o ∈ ops) : Reported (spansOf ops) o :=
  reported_foldl (Or.inr h)

/-- No ranges, no operations. -/
theorem eq_nil_of_spansOf (h : spansOf ops = []) : ops = [] := by
  cases ops with
  | nil => rfl
  | cons o ops =>
      obtain ⟨span, hspan, _⟩ := reported_spansOf (List.mem_cons_self (a := o) (l := ops))
      rw [h] at hspan
      cases hspan

end Khor.Sync
