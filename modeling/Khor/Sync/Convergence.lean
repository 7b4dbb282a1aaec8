/-
Module: Khor.Sync.Convergence
Purpose: Two rounds bring two replicas together. After the first successful round the caller holds and
  has flushed everything the far side holds and remembers a version the far side really has on disk;
  after the second both hold the same operations, both have flushed them, and the round after that
  moves nothing. Other messages, failures and restarts of the far side may happen in between.
Trusted boundary: none
Main exports: History, Round, Ahead, Level, two_rounds_converge
-/
import Khor.Sync.PlainCodec
import Khor.Sync.Replicas

namespace Khor.Sync.Convergence

open Khor.Sync.BlockStore Khor.Sync.Network Khor.Sync.Replicas
open Khor.Sync.Durability (OnShelf has_of_blocks has_flush has_keepMerged)

section Definitions

variable (codec : Codec) (owner : Writer → Side)

/-- One event of the history before the rounds. -/
def History (net net' : Net Side) : Prop :=
  ∃ e, Permitted owner net e ∧ net' = step codec net e

/-- What may happen around the rounds of `s`: anything but a local edit and but `s` losing its
process, and with it what it remembers of the far side. -/
def Quiet (s : Side) : Event Side → Prop
  | .edit _ _ _ => False
  | .restart i _ _ _ _ | .remember i _ _ => i ≠ s
  | _ => True

def QuietStep (s : Side) (net net' : Net Side) : Prop :=
  ∃ e, Permitted owner net e ∧ Quiet s e ∧ net' = step codec net e

abbrev QuietRun (s : Side) : Net Side → Net Side → Prop :=
  Relation.ReflTransGen (QuietStep codec owner s)

/-- A successful round of `s`: it asks, the far side answers that request, and `s` takes that reply in.
Quiet events may come between. -/
inductive Round (s : Side) (net : Net Side) : Net Side → Prop where
  | mk {io first second io' : Io} {out : Outgoing} {reply : Reply} {r : Sync.Round}
      {net₁ net₂ : Net Side}
      (sent : ((net.site s).act codec (.outgoing s s.other io)).2 = .request s.other out)
      (there : QuietRun codec owner s (step codec net (.outgoing s s.other io)) net₁)
      (answered : ((net₁.site s.other).act codec (.answer s.other s out first second)).2 = .reply s reply)
      (back : QuietRun codec owner s (step codec net₁ (.answer s.other s out first second)) net₂)
      (absorbed : (((net₂.site s).peer s.other).absorb codec io' (net₂.site s).loaded.store
        (net₂.site s).loaded.doc out reply).1 = .ok r) :
      Round s net (step codec net₂ (.absorb s s.other out reply io'))

end Definitions

/-! ### Replicas with nothing to learn -/

/-- Everything the document holds is in block files, and `on_disk` says so. -/
structure Full (l : Loaded) : Prop where
  has : ∀ o ∈ l.doc.applied, l.store.dir.Has o
  counted : ∀ w, l.store.onDisk.upTo w = reach l.doc.applied w

theorem Full.same {l : Loaded} (h : Full l) : l.doc.version.Same l.store.onDisk := by
  rw [VersionVector.same_iff]
  intro w
  rw [LoroDoc.upTo_version, h.counted]

/-- The version is the one on disk, so there is nothing to write. -/
theorem Full.flush {l : Loaded} (h : Full l) (io : Io) : l.store.flush io l.doc = (.ok none, l.store) :=
  if_pos h.same

/-- Keeping a merge that brought nothing does nothing. -/
theorem Full.keepMerged {l : Loaded} (h : Full l) (io : Io) :
    l.store.keepMerged io l.doc.version l.doc { applied := [], pending := [] } =
      (.ok none, l.store) := by
  have nothing : l.store.tookIn io l.doc.version l.doc = (none, l.store) := by
    unfold tookIn
    split
    · rfl
    · exact if_pos (Int.le_refl _)
  have recorded : l.store.recordImport { applied := [], pending := [] } = l.store := rfl
  rw [BlockStore.keepMerged, recorded, nothing]
  exact h.flush io

/-- Causal logs with the same operations reach equally far. -/
theorem reach_eq {log log' : List SyncOp} (h : CausalLog log) (h' : CausalLog log')
    (same : ∀ o, o ∈ log' ↔ o ∈ log) (w : Writer) : reach log' w = reach log w :=
  Nat.le_antisymm (reach_le_of_subset h h' (fun o ho => (same o).mp ho) w)
    (reach_le_of_subset h' h (fun o ho => (same o).mpr ho) w)

section Local

variable {owner : Writer → Side} {epoch : Nat} {s : Side} {far : SyncOp → Prop} {l l' : Loaded}
  {permit : Permit}

variable {o : SyncOp}

/-- Without a local edit a replica gains no operation of its own. -/
theorem own_of_move (h : Sound owner epoch s far l) (proper : Proper owner s far l permit)
    (silent : ∀ o, ¬ permit.writes o) (move : Move permit l l') (ho : o ∈ l'.doc.applied) (mine : owner o.writer = s) :
    o ∈ l.doc.applied := by
  cases move with
  | keep | flush => exact ho
  | take hops =>
      rcases LoroDoc.mem_of_mem_takeOps ho with held | parked | new
      · exact held
      · exact h.kept o (h.own o parked mine)
      · exact h.kept o ((proper.arrives _ hops o new).2 mine)
  | edit ready writes => exact absurd writes (silent _)
  | reload opens hload =>
      obtain ⟨_, _, is⟩ := reopened_eq l.store.stamp _
      rw [is] at ho
      exact h.kept o (load_has hload (Or.inl ho))

theorem own_of_moves (h : Sound owner epoch s far l) (proper : Proper owner s far l permit)
    (silent : ∀ o, ¬ permit.writes o) (moves : Moves permit l l') (ho : o ∈ l'.doc.applied)
    (mine : owner o.writer = s) : o ∈ l.doc.applied := by
  induction moves with
  | refl => exact ho
  | tail before move ih =>
      obtain ⟨sound, grows⟩ := h.moves proper before
      exact ih (own_of_move sound (proper.mono grows) silent move ho mine)

/-- A replica that is not restarted loses no operation. -/
theorem grows_of_moves (kept : ∀ unread peer, ¬ permit.opens unread peer) (moves : Moves permit l l')
    (ho : o ∈ l.doc.applied) : o ∈ l'.doc.applied := by
  induction moves with
  | refl => exact ho
  | @tail l₁ l₂ _ move ih =>
      cases move with
      | keep | flush => exact ih
      | take hops => exact l₁.doc.subset_takeOps _ ih
      | @edit deps body ready writes =>
          rcases l₁.doc.commit_cases deps body with same | ⟨_, happlied, _⟩
          · rw [same]
            exact ih
          · rw [happlied]
            exact List.mem_append_left _ ih
      | reload opens hload => exact absurd opens (kept _ _)

/-- A replica that has everything in block files and holds all that the other side has there stays as
it is, until an edit. -/
theorem Full.move (full : Full l) (h : Sound owner epoch s far l) (proper : Proper owner s far l permit)
    (silent : ∀ o, ¬ permit.writes o) (known : ∀ o, far o → o ∈ l.doc.applied) (move : Move permit l l') :
    Full l' ∧ ∀ o, o ∈ l'.doc.applied ↔ o ∈ l.doc.applied := by
  cases move with
  | keep same =>
      refine ⟨⟨fun o ho => has_of_blocks same.blocks (full.has o ho), fun w => ?_⟩, fun o => Iff.rfl⟩
      rw [same.onDisk]
      exact full.counted w
  | flush io =>
      rw [full.flush]
      exact ⟨full, fun o => Iff.rfl⟩
  | @take ops hops =>
      have sets : ∀ o, o ∈ (l.doc.takeOps ops).applied ↔ o ∈ l.doc.applied := by
        refine fun o => ⟨fun ho => ?_, fun ho => l.doc.subset_takeOps ops ho⟩
        rcases LoroDoc.mem_of_mem_takeOps ho with held | parked | new
        · exact held
        · by_cases mine : owner o.writer = s
          · exact h.kept o (h.own o parked mine)
          · exact known o (h.foreign o (Or.inr parked) mine)
        · exact known o (proper.arrives ops hops o new).1
      refine ⟨⟨fun o ho => full.has o ((sets o).mp ho), fun w => ?_⟩, sets⟩
      exact (full.counted w).trans (reach_eq l.doc.causal (l.doc.takeOps ops).causal sets w).symm
  | edit ready writes => exact absurd writes (silent _)
  | @reload loaded io unread peer pen opens hload =>
      obtain ⟨_, rfl⟩ := proper.opens unread peer opens
      obtain ⟨_, hblocks, honDisk, _⟩ := load_cases hload
      have sets : ∀ o, o ∈ loaded.doc.applied ↔ o ∈ l.doc.applied :=
        fun o => (h.mem_reload hload o).trans ⟨h.kept o, full.has o⟩
      obtain ⟨_, _, is⟩ := reopened_eq l.store.stamp loaded
      rw [is]
      refine ⟨⟨fun o ho => has_of_blocks hblocks ((h.mem_reload hload o).mp ho), fun w => ?_⟩, sets⟩
      rw [honDisk, LoroDoc.upTo_version]

theorem Full.moves (full : Full l) (h : Sound owner epoch s far l) (proper : Proper owner s far l permit)
    (silent : ∀ o, ¬ permit.writes o) (known : ∀ o, far o → o ∈ l.doc.applied) (moves : Moves permit l l') :
    Full l' ∧ ∀ o, o ∈ l'.doc.applied ↔ o ∈ l.doc.applied := by
  induction moves with
  | refl => exact ⟨full, fun o => Iff.rfl⟩
  | tail before move ih =>
      obtain ⟨full₁, sets⟩ := ih
      obtain ⟨sound, grows⟩ := h.moves proper before
      obtain ⟨full₂, sets'⟩ := full₁.move sound (proper.mono grows) silent
        (fun o ho => (sets o).mpr (known o ho)) move
      exact ⟨full₂, fun o => (sets' o).trans (sets o)⟩

end Local

/-! ### Quiet events -/

section QuietEvents

variable {codec : Codec} {owner : Writer → Side} {epoch : Nat} {s : Side}

variable {e : Event Side} {net : Net Side}

/-- A quiet event writes nothing. -/
theorem silent_of_quiet {site : Site Side} (quiet : Quiet s e) (o : SyncOp) : ¬ (permit codec site e).writes o := by
  cases e with
  | edit i deps body => exact quiet.elim
  | _ => exact List.not_mem_nil

/-- In a quiet event neither replica gains an operation of its own. -/
theorem own_of_quiet (h : Consistent codec owner epoch net) (permitted : Permitted owner net e) (quiet : Quiet s e)
    {i : Side} {o : SyncOp} (ho : o ∈ ((step codec net e).site i).loaded.doc.applied) (mine : owner o.writer = i) :
    o ∈ (net.site i).loaded.doc.applied := by
  by_cases actor : i = e.actor
  · subst actor
    rw [step_site_self] at ho
    exact own_of_moves (h.site e.actor) (h.proper permitted) (silent_of_quiet quiet)
      (act_moves codec _ e) ho mine
  · rwa [step_site_ne net actor] at ho

/-- In a quiet event the caller loses no operation. -/
theorem grows_of_quiet (quiet : Quiet s e) {o : SyncOp} (ho : o ∈ (net.site s).loaded.doc.applied) :
    o ∈ ((step codec net e).site s).loaded.doc.applied := by
  by_cases actor : s = e.actor
  · have kept : ∀ unread peer, ¬ (permit codec (net.site e.actor) e).opens unread peer := by
      cases e with
      | restart i io unread peer pen => exact absurd actor.symm quiet
      | _ => exact fun _ _ => id
    rw [actor, step_site_self]
    rw [actor] at ho
    exact grows_of_moves kept (act_moves codec _ e) ho
  · rwa [step_site_ne net actor]

/-- A replica that is full and knows all of the other's block files stays so in a quiet event. -/
theorem full_of_quiet (h : Consistent codec owner epoch net) (permitted : Permitted owner net e) (quiet : Quiet s e)
    {i : Side} (full : Full (net.site i).loaded)
    (known : ∀ o, has net i.other o → o ∈ (net.site i).loaded.doc.applied) : Full ((step codec net e).site i).loaded ∧
      ∀ o, o ∈ ((step codec net e).site i).loaded.doc.applied ↔
        o ∈ (net.site i).loaded.doc.applied := by
  by_cases actor : i = e.actor
  · subst actor
    rw [step_site_self]
    exact full.moves (h.site e.actor) (h.proper permitted) (silent_of_quiet quiet) known
      (act_moves codec _ e)
  · rw [step_site_ne net actor]
    exact ⟨full, fun o => Iff.rfl⟩

/-- After a quiet event the caller remembers what it did, or a version some reply told it. -/
theorem their_of_quiet (h : Consistent codec owner epoch net) (permitted : Permitted owner net e) (quiet : Quiet s e) :
    (((step codec net e).site s).peer s.other).their = ((net.site s).peer s.other).their ∨
      ∃ reply, (s.other, s, reply) ∈ net.replies ∧
        (((step codec net e).site s).peer s.other).their = reply.version := by
  by_cases actor : s = e.actor
  · rw [actor, step_site_self, ← actor]
    cases e with
    | edit i deps body => exact quiet.elim
    | flush i io => exact Or.inl rfl
    | outgoing | answer =>
        simp only [Site.act]
        split <;> exact Or.inl rfl
    | absorb i j sent reply io =>
        change s = i at actor
        subst actor
        obtain ⟨hs, _⟩ := h.replies j s reply permitted.1
        have hj : s.other = j := by rw [hs, other_other]
        subst hj
        cases habsorb : ((net.site s).peer s.other).absorb codec io (net.site s).loaded.store
            (net.site s).loaded.doc sent reply with
        | mk r rest =>
            obtain ⟨peer, doc, store⟩ := rest
            have after : ((((net.site s).act codec (.absorb s s.other sent reply io)).1).peer
                s.other).their = peer.their := by
              simp only [Site.act, habsorb, Function.update_self]
            rcases absorb_cases habsorb with ⟨_, _, rfl, _⟩ | ⟨_, _, _, _, _, _, ⟨_, _, rfl⟩ | ⟨_, _, rfl, _⟩⟩
            · exact Or.inl after
            · exact Or.inl after
            · exact Or.inr ⟨reply, permitted.1, after⟩
    | remember | restart => exact absurd actor.symm quiet
  · rw [step_site_ne net actor]
    exact Or.inl rfl

end QuietEvents

/-! ### After the first round -/

/-- A version every copy of the epoch reads, reaching no further than the document. -/
def Asks (codec : Codec) (epoch : Nat) (doc : LoroDoc) (version : Text) : Prop :=
  ∃ vv, (∀ store : BlockStore, epoch = store.epoch → decodeVersion codec store version = .ok vv) ∧
    ∀ w, vv.upTo w ≤ reach doc.applied w

/-- The operation is in the delta. -/
def InDelta (codec : Codec) (changes : Text) (o : SyncOp) : Prop :=
  ∃ ops, incoming codec changes = some ops ∧ o ∈ ops

/-- What the far side holds and the caller does not is in the reply. -/
def Owed (codec : Codec) (s : Side) (reply : Reply) (net : Net Side) : Prop :=
  ∀ o ∈ (net.site s.other).loaded.doc.applied,
    o ∈ (net.site s).loaded.doc.applied ∨ InDelta codec reply.changes o

/-- The caller holds and has flushed everything the far side holds, and remembers a version that the
far side has on disk. -/
structure Ahead (codec : Codec) (epoch : Nat) (s : Side) (net : Net Side) : Prop where
  holds : ∀ o ∈ (net.site s.other).loaded.doc.applied, o ∈ (net.site s).loaded.doc.applied
  full : Full (net.site s).loaded
  their : Reaches codec epoch (has net s.other) ((net.site s).peer s.other).their

section FirstRound

variable {codec : Codec} {owner : Writer → Side} {epoch : Nat} {s : Side}

variable {net : Net Side} {reply : Reply} {io : Io} {out : Outgoing}

/-- An operation of either replica whose name the other holds is held by it. -/
theorem mem_of_held_name (h : Consistent codec owner epoch net) {i j : Side} {o : SyncOp}
    (ho : o ∈ (net.site i).loaded.doc.applied) (held : Held (net.site j).loaded.doc.applied o) :
    o ∈ (net.site j).loaded.doc.applied := by
  obtain ⟨o', ho', hw, hc⟩ := (net.site j).loaded.doc.causal.exists_of_lt held
  have same : o' = o := h.unique ho' ho (by simp [Op.id, hw, hc])
  exact same ▸ ho'

section

variable (lawful : codec.Lawful) (h : Consistent codec owner epoch net)
include lawful h

/-- In a quiet event, what the caller does not hold of the far side stays in the reply. -/
theorem Owed.quiet (owed : Owed codec s reply net) {e : Event Side} (permitted : Permitted owner net e)
    (quiet : Quiet s e) : Owed codec s reply (step codec net e) := by
  intro o ho
  obtain ⟨h', _⟩ := consistent_step lawful permitted h
  by_cases mine : owner o.writer = s.other
  · have before := own_of_quiet h permitted quiet ho mine
    exact (owed o before).imp_left (grows_of_quiet quiet)
  · have far := (h'.site s.other).foreign o (Or.inl ho) mine
    rw [other_other] at far
    exact Or.inl ((h'.site s).kept o far)

/-- In a quiet event, a caller that is ahead stays ahead. -/
theorem Ahead.quiet (ahead : Ahead codec epoch s net)
    {e : Event Side} (permitted : Permitted owner net e) (quiet : Quiet s e) :
    Ahead codec epoch s (step codec net e) ∧
      ∀ o, o ∈ ((step codec net e).site s).loaded.doc.applied ↔
        o ∈ (net.site s).loaded.doc.applied := by
  obtain ⟨h', grows⟩ := consistent_step lawful permitted h
  have known : ∀ o, has net s.other o → o ∈ (net.site s).loaded.doc.applied :=
    fun o ho => ahead.holds o ((h.site s.other).kept o ho)
  obtain ⟨full, sets⟩ := full_of_quiet h permitted quiet ahead.full known
  refine ⟨⟨fun o ho => ?_, full, ?_⟩, sets⟩
  · by_cases mine : owner o.writer = s.other
    · exact (sets o).mpr (ahead.holds o (own_of_quiet h permitted quiet ho mine))
    · have far := (h'.site s.other).foreign o (Or.inl ho) mine
      rw [other_other] at far
      exact (h'.site s).kept o far
  · rcases their_of_quiet h permitted quiet with same | ⟨reply, sent, told⟩
    · rw [same]
      exact ahead.their.mono (grows s.other)
    · rw [told]
      obtain ⟨_, _, reaches⟩ := h.replies s.other s reply sent
      exact reaches.mono (grows s.other)

/-- Asking tells the far side how far the caller's document reaches. -/
theorem asks_of_sent (sent : ((net.site s).act codec (.outgoing s s.other io)).2 = .request s.other out) :
    Asks codec epoch (net.site s).loaded.doc out.have := by
  have fits := (h.site s).inEpoch.lt
  obtain ⟨vv, hdecode, hreach⟩ := decodeVersion_versionB64 lawful fits (net.site s).loaded.doc
  have told : out.have = versionB64 codec (net.site s).loaded.store (net.site s).loaded.doc := by
    simp only [Site.act] at sent
    split at sent
    · cases sent
    · rename_i hout
      cases sent
      rcases outgoing_cases hout with ⟨_, _, hr⟩ | ⟨_, _, _, ⟨_, hr⟩ | ⟨_, _, hr⟩⟩ <;> cases hr <;> rfl
  refine ⟨vv, fun store same => ?_, fun w => Nat.le_of_eq (hreach w)⟩
  rw [told]
  exact hdecode store ((h.site s).atEpoch.trans same)

end

/-- What a document holds beyond a version goes into a delta for it. -/
theorem inDelta_of_changesSinceB64 {store store' : BlockStore} {doc : LoroDoc} {theirs changes : Text}
    {vv : SyncVersion} (lawful : codec.Lawful) (hdecode : decodeVersion codec store theirs = .ok vv)
    (h : changesSinceB64 codec io store doc theirs = (.ok changes, store')) {o : SyncOp} (ho : o ∈ doc.applied) :
    o.counter < vv.upTo o.writer ∨ InDelta codec changes o := by
  rcases changesSinceB64_cases h with ⟨_, _, hr, _⟩ | ⟨vv', _, hdecode', _, ⟨_, hr⟩ |
    ⟨_, _, ⟨includes, hr⟩ | ⟨_, fits, hr⟩⟩⟩
  · cases hr
  · cases hr
  · rw [hdecode] at hdecode'
    cases hdecode'
    have le := VersionVector.includes_iff.mp includes o.writer
    rw [LoroDoc.upTo_version] at le
    exact Or.inl (Nat.lt_of_lt_of_le (doc.causal.held ho) le)
  · rw [hdecode] at hdecode'
    cases hdecode'
    cases hr
    by_cases lt : o.counter < vv.upTo o.writer
    · exact Or.inl lt
    · obtain ⟨_, ops, hops, hmem⟩ := incoming_encode lawful fits
      exact Or.inr ⟨ops, hops, (hmem o).mpr (mem_since.mpr ⟨ho, Nat.le_of_not_lt lt⟩)⟩

/-- A merge reaches every causal log whose operations are held or in the delta. -/
theorem reach_of_merge {doc doc' : LoroDoc} {changes : Text} {report : MergeReport}
    (hmerge : mergeB64Report codec doc changes = .ok (report, doc')) {log : List SyncOp}
    (causal : CausalLog log) (accounted : ∀ o ∈ log, o ∈ doc.applied ∨ InDelta codec changes o)
    (w : Writer) : reach log w ≤ reach doc'.applied w := by
  rcases mergeB64Report_cases hmerge with ⟨rfl, _, rfl⟩ | ⟨ops, hops, _, rfl⟩
  · refine reach_le_of_subset doc'.causal causal (fun o ho => ?_) w
    rcases accounted o ho with held | ⟨ops, hops, _⟩
    · exact held
    · cases hops
  · refine takeIn_reaches doc.causal causal (fun o ho => ?_) w
    rcases accounted o ho with held | ⟨ops', hops', mem⟩
    · exact Or.inl (doc.causal.held held)
    · rw [hops] at hops'
      cases hops'
      exact Or.inr (Or.inr mem)

/-- What the far side did when it sent a reply. -/
theorem answer_of_sent {site : Site Side} {t : Side} {first second : Io}
    (answered : (site.act codec (.answer t s out first second)).2 = .reply s reply) :
    ∃ doc store, answer codec first second site.loaded.store site.loaded.doc out.have out.changes =
        (.ok reply, doc, store) ∧
      (site.act codec (.answer t s out first second)).1 = site.keep doc store := by
  simp only [Site.act] at answered ⊢
  split at answered
  · cases answered
  · rename_i reply' doc store hanswer
    cases answered
    exact ⟨doc, store, hanswer, rfl⟩

/-- After the far side has answered, what the caller lacks is in the reply. -/
theorem owed_of_answered (lawful : codec.Lawful) (h : Consistent codec owner epoch net) {first second : Io}
    (permitted : Permitted owner net (.answer s.other s out first second))
    (asks : Asks codec epoch (net.site s).loaded.doc out.have)
    (answered : ((net.site s.other).act codec (.answer s.other s out first second)).2 =
      .reply s reply) : Owed codec s reply (step codec net (.answer s.other s out first second)) := by
  obtain ⟨h', _⟩ := consistent_step lawful permitted h
  have caller : (step codec net (.answer s.other s out first second)).site s = net.site s :=
    step_site_ne net (other_ne s).symm
  obtain ⟨vv, hread, hreach⟩ := asks
  have hdecode := hread (net.site s.other).loaded.store (h.site s.other).atEpoch.symm
  obtain ⟨doc, store, hanswer, _⟩ := answer_of_sent answered
  rcases answer_cases hanswer with ⟨_, _, hr, _⟩ | ⟨_, _, _, _, hchanges, ⟨_, _, hr, _⟩ |
    ⟨_, _, _, _, ⟨_, hr⟩ | ⟨_, changes, _, rfl, hr⟩⟩⟩
  · cases hr
  · cases hr
  · cases hr
  · cases hr
    intro o ho
    rw [caller]
    by_cases mine : owner o.writer = s.other
    · have before := own_of_quiet h permitted (s := s) trivial ho mine
      rcases inDelta_of_changesSinceB64 lawful hdecode hchanges before with lt | inDelta
      · exact Or.inl (mem_of_held_name h before (Nat.lt_of_lt_of_le lt (hreach o.writer)))
      · exact Or.inr inDelta
    · have far := (h'.site s.other).foreign o (Or.inl ho) mine
      rw [other_other] at far
      have held := (h'.site s).kept o far
      rw [caller] at held
      exact Or.inl held

/-- What the caller did when it took a reply in. -/
theorem absorb_of_ok {site : Site Side} {round : Sync.Round}
    (absorbed : ((site.peer s.other).absorb codec io site.loaded.store site.loaded.doc out reply).1 =
      .ok round) : ∃ report name doc store, mergeB64Report codec site.loaded.doc reply.changes = .ok (report, doc) ∧
      site.loaded.store.keepMerged io site.loaded.doc.version doc report = (.ok name, store) ∧
      (site.act codec (.absorb s s.other out reply io)).1.loaded =
        { site.loaded with doc := doc, store := store } ∧
      ((site.act codec (.absorb s s.other out reply io)).1.peer s.other).their = reply.version := by
  cases habsorb : (site.peer s.other).absorb codec io site.loaded.store site.loaded.doc out reply with
  | mk r rest =>
      obtain ⟨peer, doc, store⟩ := rest
      rw [habsorb] at absorbed
      cases absorbed
      rcases absorb_cases habsorb with ⟨_, hr, _⟩ | ⟨_, report, _, _, hmerge, hkeep, ⟨_, hr, _⟩ |
        ⟨name, rfl, rfl, _⟩⟩
      · cases hr
      · cases hr
      · refine ⟨report, name, doc, store, hmerge, hkeep, ?_, ?_⟩
        · simp only [Site.act, habsorb, Site.keep]
        · simp only [Site.act, habsorb, Function.update_self]

/-- Taking the reply in brings the caller ahead. -/
theorem ahead_of_absorbed (lawful : codec.Lawful) (h : Consistent codec owner epoch net) {round : Sync.Round}
    (permitted : Permitted owner net (.absorb s s.other out reply io)) (owed : Owed codec s reply net)
    (absorbed : (((net.site s).peer s.other).absorb codec io (net.site s).loaded.store
      (net.site s).loaded.doc out reply).1 = .ok round) :
    Ahead codec epoch s (step codec net (.absorb s s.other out reply io)) := by
  obtain ⟨h', grows⟩ := consistent_step lawful permitted h
  obtain ⟨report, name, doc, store, hmerge, hkeep, hloaded, htheir⟩ := absorb_of_ok absorbed
  have far : (step codec net (.absorb s s.other out reply io)).site s.other = net.site s.other :=
    step_site_ne net (other_ne s)
  have caller : (step codec net (.absorb s s.other out reply io)).site s =
      ((net.site s).act codec (.absorb s s.other out reply io)).1 := step_site_self net _
  have reaches := reach_of_merge hmerge (net.site s.other).loaded.doc.causal owed
  obtain ⟨all, counted⟩ := (onShelf_merge (h.site s).shelf hmerge).keepMerged_ok hkeep
  refine ⟨fun o ho => ?_, ?_, ?_⟩
  · apply mem_of_held_name h' ho
    rw [caller, hloaded]
    rw [far] at ho
    exact Nat.lt_of_lt_of_le ((net.site s.other).loaded.doc.causal.held ho) (reaches o.writer)
  · rw [caller, hloaded]
    exact ⟨all, counted⟩
  · rw [caller, htheir]
    obtain ⟨_, _, told⟩ := h.replies s.other s reply permitted.1
    exact told.mono (grows s.other)

end FirstRound

/-! ### After the second round -/

/-- What the caller holds is on the far side's disk or in the request. -/
def Pushed (codec : Codec) (s : Side) (out : Outgoing) (net : Net Side) : Prop :=
  ∀ o ∈ (net.site s).loaded.doc.applied, has net s.other o ∨ InDelta codec out.changes o

/-- Both replicas hold the same operations and have flushed them. -/
structure Level (s : Side) (net : Net Side) : Prop where
  same : ∀ o, o ∈ (net.site s).loaded.doc.applied ↔ o ∈ (net.site s.other).loaded.doc.applied
  near : Full (net.site s).loaded
  far : Full (net.site s.other).loaded

/-- The version is, on every copy of the epoch, the document's own. -/
def Says (codec : Codec) (epoch : Nat) (doc : LoroDoc) (version : Text) : Prop :=
  version ≠ [] ∧ ∃ vv, (∀ store : BlockStore, epoch = store.epoch →
      decodeVersion codec store version = .ok vv) ∧
    ∀ w, vv.upTo w = reach doc.applied w

section SecondRound

variable {codec : Codec} {owner : Writer → Side} {epoch : Nat} {s : Side}

variable {net : Net Side}

/-- A caller that is ahead pushes all the far side has not got on disk. -/
theorem pushed_of_sent (lawful : codec.Lawful) (h : Consistent codec owner epoch net)
    (ahead : Ahead codec epoch s net) {io : Io} {out : Outgoing}
    (sent : ((net.site s).act codec (.outgoing s s.other io)).2 = .request s.other out) : Pushed codec s out net := by
  obtain ⟨told, vv, hread, hcover⟩ := ahead.their
  have hdecode := hread (net.site s).loaded.store (h.site s).atEpoch.symm
  simp only [Site.act] at sent
  split at sent
  · cases sent
  · rename_i hout
    cases sent
    rcases outgoing_cases hout with ⟨never, _⟩ | ⟨_, _, hchanges, ⟨_, hr⟩ | ⟨changes, rfl, hr⟩⟩
    · exact absurd never told
    · cases hr
    · cases hr
      intro o ho
      rcases inDelta_of_changesSinceB64 lawful hdecode hchanges ho with lt | inDelta
      · obtain ⟨o', ho', hw, hc⟩ := hcover _ _ lt
        have same : o' = o := h.unique ((h.site s.other).kept o' ho') ho (by simp [Op.id, hw, hc])
        exact Or.inl (same ▸ ho')
      · exact Or.inr inDelta

/-- When the far side has answered what the caller pushed, both are level, and the answer says where
they are. -/
theorem level_of_answered (lawful : codec.Lawful) (h : Consistent codec owner epoch net) {out : Outgoing}
    {reply : Reply} {first second : Io} (permitted : Permitted owner net (.answer s.other s out first second))
    (ahead : Ahead codec epoch s net) (pushed : Pushed codec s out net)
    (answered : ((net.site s.other).act codec (.answer s.other s out first second)).2 =
      .reply s reply) : Level s (step codec net (.answer s.other s out first second)) ∧
      Says codec epoch
        ((step codec net (.answer s.other s out first second)).site s).loaded.doc reply.version := by
  obtain ⟨h', _⟩ := consistent_step lawful permitted h
  obtain ⟨ahead', sets⟩ := ahead.quiet lawful h permitted trivial
  have far : (step codec net (.answer s.other s out first second)).site s.other =
      ((net.site s.other).act codec (.answer s.other s out first second)).1 := step_site_self net _
  obtain ⟨doc, store, hanswer, hsite⟩ := answer_of_sent answered
  rw [hsite] at far
  rcases answer_cases hanswer with ⟨_, _, hr, _⟩ | ⟨_, _, s₁, _, hchanges, ⟨_, _, hr, _⟩ |
    ⟨report, _, hmerge, hkeep, ⟨_, hr⟩ | ⟨name, changes, rfl, rfl, hr⟩⟩⟩
  · cases hr
  · cases hr
  · cases hr
  · cases hr
    have shelf := onShelf_merge (onShelf_changesSinceB64 (h.site s.other).shelf hchanges) hmerge
    obtain ⟨all, counted⟩ := shelf.keepMerged_ok hkeep
    have reaches := reach_of_merge hmerge (net.site s).loaded.doc.causal
      fun o ho => (pushed o ho).imp_left ((h.site s.other).kept o)
    have same : ∀ o, o ∈ ((step codec net (.answer s.other s out first second)).site s).loaded.doc.applied ↔
        o ∈ ((step codec net (.answer s.other s out first second)).site s.other).loaded.doc.applied := by
      refine fun o => ⟨fun ho => mem_of_held_name h' ho ?_, ahead'.holds o⟩
      rw [far]
      have before := (sets o).mp ho
      exact Nat.lt_of_lt_of_le ((net.site s).loaded.doc.causal.held before) (reaches o.writer)
    have full : Full ((step codec net (.answer s.other s out first second)).site s.other).loaded := by
      rw [far]
      exact ⟨all, counted⟩
    refine ⟨⟨same, ahead'.full, full⟩, versionB64_ne_nil lawful _ _, ?_⟩
    have atEpoch : store.epoch = epoch := by
      have after := (h'.site s.other).atEpoch
      rwa [far] at after
    have fits : store.epoch < 2 ^ 32 := by
      have inside := (h'.site s.other).inEpoch
      rw [far] at inside
      exact inside.lt
    obtain ⟨vv, hdecode, hreach⟩ := decodeVersion_versionB64 lawful fits doc
    refine ⟨vv, fun other eq => hdecode other (atEpoch.trans eq), fun w => ?_⟩
    rw [hreach]
    have sameDoc : ∀ o, o ∈ doc.applied ↔ o ∈ ((step codec net
        (.answer s.other s out first second)).site s).loaded.doc.applied := by
      intro o
      rw [same o, far]
      exact Iff.rfl
    exact reach_eq (LoroDoc.causal _) doc.causal sameDoc w

/-- In a quiet event, replicas that are level stay level and keep their operations. -/
theorem Level.quiet (h : Consistent codec owner epoch net) (level : Level s net) {e : Event Side}
    (permitted : Permitted owner net e) (quiet : Quiet s e) : Level s (step codec net e) ∧
      ∀ o, o ∈ ((step codec net e).site s).loaded.doc.applied ↔
        o ∈ (net.site s).loaded.doc.applied := by
  have knownNear : ∀ o, has net s.other o → o ∈ (net.site s).loaded.doc.applied :=
    fun o ho => (level.same o).mpr ((h.site s.other).kept o ho)
  have knownFar : ∀ o, has net s.other.other o → o ∈ (net.site s.other).loaded.doc.applied := by
    intro o ho
    rw [other_other] at ho
    exact (level.same o).mp ((h.site s).kept o ho)
  obtain ⟨near, setsNear⟩ := full_of_quiet h permitted quiet level.near knownNear
  obtain ⟨far, setsFar⟩ := full_of_quiet h permitted quiet level.far knownFar
  exact ⟨⟨fun o => (setsNear o).trans ((level.same o).trans (setsFar o).symm), near, far⟩, setsNear⟩

theorem Says.congr {doc doc' : LoroDoc} {version : Text} (h : Says codec epoch doc version)
    (same : ∀ o, o ∈ doc'.applied ↔ o ∈ doc.applied) : Says codec epoch doc' version := by
  obtain ⟨told, vv, hdecode, hreach⟩ := h
  exact ⟨told, vv, hdecode, fun w => (hreach w).trans (reach_eq doc.causal doc'.causal same w).symm⟩

end SecondRound

/-! ### Rounds -/

section Rounds

variable {codec : Codec} {owner : Writer → Side} {epoch : Nat} {s : Side}

variable {net net' : Net Side}

theorem consistent_run (lawful : codec.Lawful) (run : Relation.ReflTransGen (History codec owner) net net')
    (h : Consistent codec owner epoch net) : Consistent codec owner epoch net' := by
  induction run with
  | refl => exact h
  | tail _ hstep ih =>
      obtain ⟨e, permitted, rfl⟩ := hstep
      exact (consistent_step lawful permitted ih).1

/-- What each quiet event keeps, a quiet run keeps. -/
theorem quiet_run (lawful : codec.Lawful) {P : Net Side → Prop}
    (keeps : ∀ net e, Consistent codec owner epoch net → Permitted owner net e → Quiet s e →
      P net → P (step codec net e)) (run : QuietRun codec owner s net net') (h : Consistent codec owner epoch net)
    (start : P net) : Consistent codec owner epoch net' ∧ P net' := by
  induction run with
  | refl => exact ⟨h, start⟩
  | tail _ hstep ih =>
      obtain ⟨e, permitted, quiet, rfl⟩ := hstep
      exact ⟨(consistent_step lawful permitted ih.1).1, keeps _ e ih.1 permitted quiet ih.2⟩

/-- What was sent stays sent. -/
theorem requests_step {e : Event Side} {m : Side × Side × Outgoing} (h : m ∈ net.requests) :
    m ∈ (step codec net e).requests := by
  simp only [step]
  split
  · exact .tail _ h
  · exact h

theorem replies_step {e : Event Side} {m : Side × Side × Reply} (h : m ∈ net.replies) :
    m ∈ (step codec net e).replies := by
  simp only [step]
  split
  · exact .tail _ h
  · exact h

/-- **`Peer::round` over a far side that answers at once is a round**, and leaves the caller as the round does. -/
theorem Round.of_peer {io first second io' : Io} {r : Sync.Round} {peer : Peer} {doc : LoroDoc} {store : BlockStore}
    (ran : Peer.round codec io io' ((net.site s).peer s.other) (net.site s).loaded.store (net.site s).loaded.doc
      (fun «have» changes => (Sync.answer codec first second (net.site s.other).loaded.store
        (net.site s.other).loaded.doc «have» changes).1) = (.ok r, peer, doc, store)) :
    ∃ net', Round codec owner s net net' ∧
      net'.site s = { (net.site s).keep doc store with peer := Function.update (net.site s).peer s.other peer } := by
  unfold Peer.round at ran
  split at ran
  · cases ran
  next out store₁ sent =>
  split at ran
  · cases ran
  next reply answered =>
  dsimp only at answered
  have asks : (net.site s).act codec (.outgoing s s.other io) =
      ((net.site s).keep (net.site s).loaded.doc store₁, .request s.other out) := by
    simp only [Site.act, sent]
  have caller : (step codec net (.outgoing s s.other io)).site s =
      (net.site s).keep (net.site s).loaded.doc store₁ :=
    (step_site_self net (.outgoing s s.other io)).trans (congrArg Prod.fst asks)
  have far : (step codec net (.outgoing s s.other io)).site s.other = net.site s.other :=
    step_site_ne net (other_ne s)
  have replies : ((net.site s.other).act codec (.answer s.other s out first second)).2 = .reply s reply := by
    simp only [Site.act]
    split
    · next is =>
      rw [is] at answered
      cases answered
    · next is =>
      rw [is] at answered
      cases answered
      rfl
  have back : (step codec (step codec net (.outgoing s s.other io)) (.answer s.other s out first second)).site s =
      (net.site s).keep (net.site s).loaded.doc store₁ :=
    (step_site_ne _ (other_ne s).symm).trans caller
  refine ⟨_, @Round.mk _ _ _ _ _ _ _ io' _ _ r _ _ (congrArg Prod.snd asks) .refl (far ▸ replies) .refl ?_, ?_⟩
  · rw [back]
    exact congrArg Prod.fst ran
  · refine (step_site_self _ (.absorb s s.other out reply io')).trans ?_
    rw [Event.actor, back]
    simp only [Site.act, Site.keep, ran]

section

variable (lawful : codec.Lawful) (round : Round codec owner s net net') (h : Consistent codec owner epoch net)
include lawful round h

/-- A round, seen through what holds while its request and then its reply are on the way. -/
theorem Round.through {P : Outgoing → Net Side → Prop} {Q : Reply → Net Side → Prop}
    {R : Net Side → Prop}
    (ask : ∀ io out, ((net.site s).act codec (.outgoing s s.other io)).2 = .request s.other out →
      P out net) (there : ∀ out net e, Consistent codec owner epoch net → Permitted owner net e → Quiet s e →
      P out net → P out (step codec net e)) (answer : ∀ out reply first second net, Consistent codec owner epoch net →
      Permitted owner net (.answer s.other s out first second) → P out net →
      ((net.site s.other).act codec (.answer s.other s out first second)).2 = .reply s reply →
      Q reply (step codec net (.answer s.other s out first second)))
    (back : ∀ reply net e, Consistent codec owner epoch net → Permitted owner net e → Quiet s e →
      Q reply net → Q reply (step codec net e)) (absorb : ∀ out reply io r net, Consistent codec owner epoch net →
      Permitted owner net (.absorb s s.other out reply io) → Q reply net →
      (((net.site s).peer s.other).absorb codec io (net.site s).loaded.store
        (net.site s).loaded.doc out reply).1 = .ok r →
      R (step codec net (.absorb s s.other out reply io))) : Consistent codec owner epoch net' ∧ R net' := by
  obtain ⟨sent, run₁, answered, run₂, absorbed⟩ := round
  rename_i io first second io' out reply r net₁ net₂
  have asks : Permitted owner net (.outgoing s s.other io) := ⟨trivial, rfl⟩
  have asked : (s, s.other, out) ∈ (step codec net (.outgoing s s.other io)).requests := by
    simp only [step, Event.actor, sent]
    exact .head _
  obtain ⟨h₁, asked₁, hP⟩ := quiet_run lawful
    (P := fun net => (s, s.other, out) ∈ net.requests ∧ P out net)
    (fun net e hnet permitted quiet hp => ⟨requests_step hp.1, there out net e hnet permitted quiet hp.2⟩)
    run₁ (consistent_step lawful asks h).1
    ⟨asked, there out net _ h asks trivial (ask io out sent)⟩
  have answers : Permitted owner net₁ (.answer s.other s out first second) := ⟨asked₁, trivial⟩
  have replied : (s.other, s, reply) ∈
      (step codec net₁ (.answer s.other s out first second)).replies := by
    simp only [step, Event.actor, answered]
    exact .head _
  obtain ⟨h₂, replied₂, hQ⟩ := quiet_run lawful
    (P := fun net => (s.other, s, reply) ∈ net.replies ∧ Q reply net)
    (fun net e hnet permitted quiet hq => ⟨replies_step hq.1, back reply net e hnet permitted quiet hq.2⟩)
    run₂ (consistent_step lawful answers h₁).1
    ⟨replied, answer out reply first second net₁ h₁ answers hP answered⟩
  have absorbs : Permitted owner net₂ (.absorb s s.other out reply io') := ⟨replied₂, trivial⟩
  exact ⟨(consistent_step lawful absorbs h₂).1, absorb out reply io' r net₂ h₂ absorbs hQ absorbed⟩

/-- After the first successful round the caller is ahead. -/
theorem ahead_of_round : Consistent codec owner epoch net' ∧ Ahead codec epoch s net' := by
  refine round.through (P := fun out net => Asks codec epoch (net.site s).loaded.doc out.have)
    (Q := Owed codec s) lawful h ?_ ?_ ?_ ?_ ?_
  · exact fun io out sent => asks_of_sent lawful h sent
  · rintro out net e _ _ quiet ⟨vv, hdecode, hreach⟩
    refine ⟨vv, hdecode, fun w => Nat.le_trans (hreach w) ?_⟩
    exact reach_le_of_subset (LoroDoc.causal _) (LoroDoc.causal _)
      (fun o ho => grows_of_quiet quiet ho) w
  · exact fun out reply first second net hnet permitted asks answered =>
      owed_of_answered lawful hnet permitted asks answered
  · exact fun reply net e hnet permitted quiet owed => owed.quiet lawful hnet permitted quiet
  · exact fun out reply io r net hnet permitted owed absorbed =>
      ahead_of_absorbed lawful hnet permitted owed absorbed

/-- After a successful round of a caller that is ahead both are level, and the caller knows it. -/
theorem level_of_round (ahead : Ahead codec epoch s net) :
    Consistent codec owner epoch net' ∧ Level s net' ∧
      Says codec epoch (net'.site s).loaded.doc ((net'.site s).peer s.other).their := by
  refine round.through (P := fun out net => Ahead codec epoch s net ∧ Pushed codec s out net)
    (Q := fun reply net => Level s net ∧ Says codec epoch (net.site s).loaded.doc reply.version)
    (R := fun net => Level s net ∧ Says codec epoch (net.site s).loaded.doc ((net.site s).peer s.other).their)
    lawful h ?_ ?_ ?_ ?_ ?_
  · exact fun io out sent => ⟨ahead, pushed_of_sent lawful h ahead sent⟩
  · rintro out net e hnet permitted quiet ⟨ahead, pushed⟩
    obtain ⟨ahead', sets⟩ := ahead.quiet lawful hnet permitted quiet
    obtain ⟨_, grows⟩ := consistent_step lawful permitted hnet
    exact ⟨ahead', fun o ho => (pushed o ((sets o).mp ho)).imp_left (grows s.other o)⟩
  · rintro out reply first second net hnet permitted ⟨ahead, pushed⟩ answered
    exact level_of_answered lawful hnet permitted ahead pushed answered
  · rintro reply net e hnet permitted quiet ⟨level, told⟩
    obtain ⟨level', sets⟩ := level.quiet hnet permitted quiet
    exact ⟨level', told.congr sets⟩
  · rintro out reply io r net hnet permitted ⟨level, told⟩ absorbed
    obtain ⟨level', sets⟩ := level.quiet hnet permitted trivial
    obtain ⟨_, _, _, _, _, _, _, htheir⟩ := absorb_of_ok absorbed
    refine ⟨level', ?_⟩
    have caller : (step codec net (.absorb s s.other out reply io)).site s =
        ((net.site s).act codec (.absorb s s.other out reply io)).1 := step_site_self net _
    rw [show (((step codec net (.absorb s s.other out reply io)).site s).peer s.other).their =
      reply.version from caller ▸ htheir]
    exact told.congr sets

end

end Rounds

/-! ### Convergence -/

/-- Both replicas hold the same operations and have flushed all of them, and the next round of `s`
pushes and pulls the empty string, whatever the outside answers: no step of it needs the disk. -/
structure Converged (codec : Codec) (s : Side) (net : Net Side) : Prop where
  same : ∀ o, o ∈ (net.site s).loaded.doc.applied ↔ o ∈ (net.site s.other).loaded.doc.applied
  flushed : ∀ i, (∀ o ∈ (net.site i).loaded.doc.applied, has net i o) ∧
    (net.site i).loaded.doc.version.Same (net.site i).loaded.store.onDisk
  still : ∀ io first second io', ∃ out reply items,
    ((net.site s).peer s.other).outgoing codec io (net.site s).loaded.store (net.site s).loaded.doc =
        (.ok out, (net.site s).loaded.store) ∧
      out.changes = [] ∧
      answer codec first second (net.site s.other).loaded.store (net.site s.other).loaded.doc out.have
          out.changes =
        (.ok reply, (net.site s.other).loaded.doc, (net.site s.other).loaded.store) ∧
      reply.changes = [] ∧
      ((net.site s).peer s.other).absorb codec io' (net.site s).loaded.store
          (net.site s).loaded.doc out reply =
        (.ok { pushed := 0, pulled := 0, items := items }, { their := reply.version },
          (net.site s).loaded.doc, (net.site s).loaded.store)

/-- Two copies of one empty document, of one epoch, before anything was sent. A pile that is new takes this build's
epoch and has not named it yet. -/
structure Start (owner : Writer → Side) (epoch : Nat) (net : Net Side) : Prop where
  requests : net.requests = []
  replies : net.replies = []
  site : ∀ i, owner (net.site i).loaded.doc.peer = i ∧
    ∃ io dir peer pen pile, dir.blocks = ∅ ∧
      (readEpoch dir = epoch ∧ load io (fun _ => false) dir peer pen pile = .ok (net.site i).loaded ∨
        dir.epochFile = .absent ∧ epoch = EPOCH ∧
          loadPile io (fun _ => false) dir peer pen pile = .ok (net.site i).loaded)

section Convergence

variable {codec : Codec} {owner : Writer → Side} {epoch : Nat} {s : Side}

theorem Start.consistent {net : Net Side} (start : Start owner epoch net) :
    Consistent codec owner epoch net := by
  refine ⟨fun i => ?_, ?_, ?_⟩
  · obtain ⟨mine, io, dir, peer, pen, pile, empty, opened⟩ := start.site i
    -- however it was opened, only the epoch it speaks in differs
    obtain ⟨loaded, stamp, hload, same, inEpoch, atEpoch⟩ : ∃ loaded stamp,
        load io (fun _ => false) dir peer pen pile = .ok loaded ∧ (net.site i).loaded = loaded.reopened stamp ∧
          (net.site i).loaded.store.InEpoch ∧ (net.site i).loaded.store.epoch = epoch := by
      rcases opened with ⟨named, hload⟩ | ⟨file, rfl, hload⟩
      · obtain ⟨hepoch, hfile, hstamp⟩ := load_epoch hload
        exact ⟨_, false, hload, rfl, .inl ⟨hstamp, (readEpoch_of_file hfile).trans hepoch.symm⟩, hepoch.trans named⟩
      · obtain ⟨loaded, hload, same, inEpoch⟩ := loadPile_epoch hload file empty
        exact ⟨loaded, true, hload, same, inEpoch⟩
    obtain ⟨_, hblocks, _⟩ := load_cases hload
    obtain ⟨_, _, is⟩ := reopened_eq stamp loaded
    rw [same, is] at mine atEpoch inEpoch ⊢
    have nothing : ∀ o, ¬ dir.Has o := by
      rintro o ⟨name, ops, hlookup, _⟩
      rw [empty] at hlookup
      cases hlookup
    have nothing' : ∀ o, ¬ loaded.store.dir.Has o := fun o ho => nothing o (has_of_blocks hblocks.symm ho)
    refine ⟨mine, (OnShelf.load hload).of_books rfl rfl, fun o ho => absurd ho (nothing' o), ⟨[], .nil, fun o => ?_⟩,
      fun o ho => absurd (load_has hload ho) (nothing o),
      fun o ho => absurd (load_has hload (Or.inr ho)) (nothing o), atEpoch, inEpoch⟩
    exact ⟨fun h => (by cases h), fun h => absurd h (nothing' o)⟩
  · rw [start.requests]
    exact fun _ _ _ h => by cases h
  · rw [start.replies]
    exact fun _ _ _ h => by cases h

/-- Level replicas, of which the caller knows it, have nothing to exchange. -/
theorem converged_of_level {net : Net Side} (lawful : codec.Lawful) (h : Consistent codec owner epoch net)
    (level : Level s net) (told : Says codec epoch (net.site s).loaded.doc ((net.site s).peer s.other).their) :
    Converged codec s net := by
  have full : ∀ i, Full (net.site i).loaded := by
    intro i
    by_cases near : i = s
    · exact near ▸ level.near
    · exact eq_other_of_ne near ▸ level.far
  have merged : ∀ doc, mergeB64Report codec doc [] = .ok ({ applied := [], pending := [] }, doc) :=
    fun doc => rfl
  refine ⟨level.same, fun i => ⟨(full i).has, (full i).same⟩, fun io first second io' => ?_⟩
  obtain ⟨met, vv, hread, hreach⟩ := told
  have hdecode := hread (net.site s).loaded.store (h.site s).atEpoch.symm
  have includes : vv.Includes (net.site s).loaded.doc.version := by
    rw [VersionVector.includes_iff]
    intro w
    rw [LoroDoc.upTo_version, hreach]
  have fits : ∀ i, (net.site i).loaded.store.epoch < 2 ^ 32 := fun i => (h.site i).inEpoch.lt
  have epochs : (net.site s).loaded.store.epoch = (net.site s.other).loaded.store.epoch :=
    (h.site s).atEpoch.trans (h.site s.other).atEpoch.symm
  obtain ⟨mine, hmine, reachMine⟩ :=
    decodeVersion_versionB64 lawful (fits s) (net.site s).loaded.doc
  obtain ⟨theirs, htheirs, _⟩ :=
    decodeVersion_versionB64 lawful (fits s.other) (net.site s.other).loaded.doc
  have includesFar : mine.Includes (net.site s.other).loaded.doc.version := by
    rw [VersionVector.includes_iff]
    intro w
    rw [LoroDoc.upTo_version, reachMine]
    exact reach_le_of_subset (LoroDoc.causal _) (LoroDoc.causal _)
      (fun o ho => (level.same o).mpr ho) w
  refine ⟨⟨versionB64 codec (net.site s).loaded.store (net.site s).loaded.doc, []⟩,
    ⟨versionB64 codec (net.site s.other).loaded.store (net.site s.other).loaded.doc, [],
      codec.items (net.site s.other).loaded.doc.applied⟩,
    codec.items (net.site s).loaded.doc.applied, ?_, rfl, ?_, rfl, ?_⟩
  · simp only [Peer.outgoing, met, if_false, changesSinceB64, hdecode, (full s).flush, includes, if_true]
  · simp only [answer, changesSinceB64, hmine _ epochs, (full s.other).flush, includesFar, if_true,
      merged, (full s.other).keepMerged]
  · simp only [Peer.absorb, htheirs _ epochs.symm, merged, (full s).keepMerged]
    rfl

/-- **Convergence.** After any history of local edits, failed rounds, lost, repeated and stale messages
and restarts, and whatever a side remembers of the other, two successful rounds without a local edit
bring both replicas to the same operations, flushed on both sides, and the next round moves nothing. -/
theorem two_rounds_converge (lawful : codec.Lawful) {net₀ net net₁ net₂ net₃ : Net Side}
    (start : Start owner epoch net₀) (history : Relation.ReflTransGen (History codec owner) net₀ net)
    (first : Round codec owner s net net₁) (between : QuietRun codec owner s net₁ net₂)
    (second : Round codec owner s net₂ net₃) : Converged codec s net₃ := by
  have h := consistent_run lawful history start.consistent
  obtain ⟨h₁, ahead₁⟩ := ahead_of_round lawful first h
  obtain ⟨h₂, ahead₂⟩ := quiet_run lawful
    (fun net e hnet permitted quiet ahead => (Ahead.quiet lawful hnet ahead permitted quiet).1)
    between h₁ ahead₁
  obtain ⟨h₃, level, told⟩ := level_of_round lawful second h₂ ahead₂
  exact converged_of_level lawful h₃ level told

end Convergence

/-! ### One edit, two rounds -/

/-- Two empty copies, open under the names 1 and 2. -/
def twoCopies : Net Side where
  site i :=
    { loaded := opened .absent (match i with | .a => 1 | .b => 2)
      peer := fun _ => { their := [] } }
  requests := []
  replies := []
  written := []

def ownerOf (w : Writer) : Side := if w = 1 then .a else .b

/-- The first copy edits. -/
def edited : Net Side := step plainCodec twoCopies (.edit .a [] 7)

/-- What the first copy asks. -/
def requestOf (net : Net Side) : Outgoing :=
  match ((net.site .a).act plainCodec (.outgoing .a .b {})).2 with
  | .request _ out => out
  | _ => ⟨[], []⟩

def asked (net : Net Side) : Net Side := step plainCodec net (.outgoing .a .b {})

/-- What the second copy replies. -/
def replyOf (net : Net Side) : Reply :=
  match (((asked net).site .b).act plainCodec (.answer .b .a (requestOf net) {} {})).2 with
  | .reply _ reply => reply
  | _ => ⟨[], [], 0⟩

/-- One round of the first copy, nothing coming between. -/
def rounded (net : Net Side) : Net Side :=
  step plainCodec (step plainCodec (asked net) (.answer .b .a (requestOf net) {} {}))
    (.absorb .a .b (requestOf net) (replyOf net) {})

/-- The first round only pulls, the second pushes the edit, and the third moves nothing. -/
theorem edit_converges : Converged plainCodec .a (rounded (rounded edited)) := by
  have start : Start ownerOf 0 twoCopies := by
    refine ⟨rfl, rfl, fun i => ⟨?_, {}, Dir.fresh ['d'], ?_⟩⟩
    · cases i <;> rfl
    · cases i <;> exact ⟨_, none, none, rfl, .inl ⟨rfl, load_opened .absent _⟩⟩
  have history : Relation.ReflTransGen (History plainCodec ownerOf) twoCopies edited :=
    Relation.ReflTransGen.refl.tail ⟨.edit .a [] 7, ⟨trivial, trivial⟩, rfl⟩
  have first : Round plainCodec ownerOf .a edited (rounded edited) :=
    .mk rfl .refl rfl .refl rfl
  have second : Round plainCodec ownerOf .a (rounded edited) (rounded (rounded edited)) :=
    .mk rfl .refl rfl .refl rfl
  exact two_rounds_converge plainCodec_lawful start history first .refl second

end Khor.Sync.Convergence
