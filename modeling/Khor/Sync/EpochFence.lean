/-
Module: Khor.Sync.EpochFence
Purpose: Piles of different epochs do not merge. A version that names an epoch is refused by every
  other one, so between replicas that say where they are no operation leaves the epoch it was written
  in. The empty version names no epoch and is not refused: whatever comes with it is merged.
Trusted boundary: none
Main exports: NamesEpoch, Brings, Fenced, epoch_fence, empty_version_lets_all_in
-/
import Khor.Sync.Network
import Khor.Sync.PlainCodec

namespace Khor.Sync.EpochFence

open Khor.Sync.BlockStore Khor.Sync.Network

/-- The string names a version of the epoch: base64 of a version, with the epoch and a colon in front,
or with no colon for epoch 0. The empty string names none. -/
def NamesEpoch (codec : Codec) (s : Text) (epoch : Nat) : Prop :=
  s ≠ [] ∧ ∃ b64 bytes vv, Base64.decode b64 = some bytes ∧ codec.decodeVersion bytes = some vv ∧
    ((':' ∉ s ∧ s = b64 ∧ epoch = 0) ∨
      ∃ front, ':' ∉ front ∧ s = front ++ ':' :: b64 ∧ parseBounded (2 ^ 32) front = some epoch)

/-- The document would apply an operation the delta carries, or one it has parked, right away. -/
def Brings (codec : Codec) (doc : LoroDoc) (changes : Text) : Prop :=
  ∃ ops, incoming codec changes = some ops ∧
    ∃ o, (o ∈ doc.parked ∨ o ∈ ops) ∧ Ready doc.applied o

/-- The two documents hold the same operations. -/
def SameOps (doc doc' : LoroDoc) : Prop := ∀ o, o ∈ doc'.applied ↔ o ∈ doc.applied

section Fence

variable {codec : Codec}

variable {store : BlockStore}

/-- `unspell` accepts a string exactly for the epoch in front of it. -/
theorem unspell_cases {s b64 : Text} (h : unspell store s = .ok b64) : (':' ∉ s ∧ s = b64 ∧ store.epoch = 0) ∨
      ∃ front, ':' ∉ front ∧ s = front ++ ':' :: b64 ∧
        parseBounded (2 ^ 32) front = some store.epoch := by
  unfold unspell at h
  cases hsplit : splitOnce s with
  | none =>
      simp only [hsplit] at h
      split at h
      · cases h
      · rename_i same
        cases h
        exact Or.inl ⟨notMem_of_splitOnce hsplit, rfl, (not_not.mp same).symm⟩
  | some pair =>
      obtain ⟨front, rest⟩ := pair
      obtain ⟨hs, notMem⟩ := eq_append_of_splitOnce hsplit
      simp only [hsplit] at h
      cases hparse : parseBounded (2 ^ 32) front with
      | none =>
          simp only [hparse] at h
          cases h
      | some epoch =>
          simp only [hparse] at h
          split at h
          · cases h
          · rename_i same
            cases h
            exact Or.inr ⟨front, notMem, hs, by rw [hparse, not_not.mp same]⟩

/-- A version is accepted only if it is empty or names the store's epoch. -/
theorem namesEpoch_of_decodeVersion {s : Text} {vv : SyncVersion} (h : decodeVersion codec store s = .ok vv)
    (told : s ≠ []) : NamesEpoch codec s store.epoch := by
  rw [decodeVersion, if_neg told] at h
  cases hspell : unspell store s with
  | error e => simp [hspell] at h
  | ok b64 =>
      simp only [hspell] at h
      cases hbytes : Base64.decode b64 with
      | none => simp [hbytes] at h
      | some bytes =>
          simp only [hbytes] at h
          cases hvv : codec.decodeVersion bytes with
          | none => simp [hvv] at h
          | some vv' => exact ⟨told, b64, bytes, vv', hbytes, hvv, unspell_cases hspell⟩

/-- A spelled version is accepted in its own epoch only. -/
theorem epoch_of_decodeVersion {epoch : Nat} {bytes : List UInt8} {vv : SyncVersion} (fits : epoch < 2 ^ 32)
    (header : bytes ≠ []) (h : decodeVersion codec store (spell epoch bytes) = .ok vv) : store.epoch = epoch := by
  have own : unspell { store with epoch := epoch } (spell epoch bytes) = .ok (Base64.encode bytes) :=
    unspell_spell fits rfl bytes
  rw [decodeVersion, if_neg (spell_ne_nil header)] at h
  cases hspell : unspell store (spell epoch bytes) with
  | error e => simp [hspell] at h
  | ok b64 =>
      -- both stores read the same epoch in front of the same string
      rcases unspell_cases own with ⟨no, _, rfl⟩ | ⟨front, clean, hs, hparse⟩ <;>
        rcases unspell_cases hspell with ⟨no', _, same⟩ | ⟨front', clean', hs', hparse'⟩
      · exact same
      · exact absurd (hs' ▸ List.mem_append_right _ (.head _)) no
      · exact absurd (hs ▸ List.mem_append_right _ (.head _)) no'
      · have split := splitOnce_append clean (Base64.encode bytes)
        have split' := splitOnce_append clean' b64
        rw [← hs] at split
        rw [← hs', split] at split'
        cases split'
        rw [hparse] at hparse'
        exact (Option.some.inj hparse').symm

theorem sameOps_takeOps_iff (doc : LoroDoc) (ops : List SyncOp) :
    SameOps doc (doc.takeOps ops) ↔ ∀ o, (o ∈ doc.parked ∨ o ∈ ops) → ¬ Ready doc.applied o := by
  constructor
  · intro same o ho ready
    have grows := takeIn_of_ready doc.causal ho ready
    have le := reach_le_of_subset doc.causal (doc.takeOps ops).causal (fun o ho => (same o).mp ho)
      o.writer
    exact absurd grows (Nat.not_lt.mpr le)
  · intro blocked o
    have unchanged : (doc.takeOps ops).applied = doc.applied := takeIn_of_not_ready blocked
    rw [unchanged]

/-- A merge changes the document exactly when it brings something. -/
theorem sameOps_iff_of_merge {doc doc' : LoroDoc} {changes : Text} {report : MergeReport}
    (h : mergeB64Report codec doc changes = .ok (report, doc')) :
    SameOps doc doc' ↔ ¬ Brings codec doc changes := by
  rcases mergeB64Report_cases h with ⟨rfl, _, rfl⟩ | ⟨ops, hops, _, rfl⟩
  · refine iff_of_true (fun _ => Iff.rfl) ?_
    rintro ⟨ops, hops, _⟩
    exact (@mergeB64Report_of_incoming _ doc' _ _ hops).1 rfl
  · rw [sameOps_takeOps_iff]
    constructor
    · rintro blocked ⟨ops', hops', o, ho, ready⟩
      rw [hops] at hops'
      cases hops'
      exact blocked o ho ready
    · exact fun nothing o ho ready => nothing ⟨ops, hops, o, ho, ready⟩

/-- A merge that is refused brings nothing. -/
theorem not_brings_of_error {doc : LoroDoc} {changes : Text} {e : WireError}
    (h : mergeB64Report codec doc changes = .error e) : ¬ Brings codec doc changes := by
  rintro ⟨ops, hops, _⟩
  have merged := (@mergeB64Report_of_incoming _ doc _ _ hops).2
  rw [h] at merged
  cases merged

/-- Answering changes the document exactly when the caller's version is readable here and its changes
bring something, whatever happens to the flushes and to the answer. -/
theorem sameOps_answer_iff (first second : Io) (store : BlockStore) (doc : LoroDoc) («have» changes : Text) :
    SameOps doc (answer codec first second store doc «have» changes).2.1 ↔
      ¬ ((∃ vv, decodeVersion codec store «have» = .ok vv) ∧ Brings codec doc changes) := by
  rcases answer_cases (Prod.eta (answer codec first second store doc «have» changes)).symm with
    ⟨e, hdecode, _, same, _⟩ | ⟨vv, out, s₁, hdecode, _, ⟨e, hmerge, _, same, _⟩ | ⟨report, flushed, hmerge, _⟩⟩
  · rw [same]
    refine iff_of_true (fun _ => Iff.rfl) ?_
    rintro ⟨⟨vv, hvv⟩, _⟩
    rw [hdecode] at hvv
    cases hvv
  · rw [same]
    exact iff_of_true (fun _ => Iff.rfl) fun h => not_brings_of_error hmerge h.2
  · rw [sameOps_iff_of_merge hmerge]
    exact not_congr ⟨fun brings => ⟨⟨vv, hdecode⟩, brings⟩, fun h => h.2⟩

/-- Taking in a reply changes the document exactly when the reply's version is readable here and its
changes bring something. -/
theorem sameOps_absorb_iff (io : Io) (peer : Peer) (store : BlockStore) (doc : LoroDoc)
    (sent : Outgoing) (reply : Reply) :
    SameOps doc (peer.absorb codec io store doc sent reply).2.2.1 ↔
      ¬ ((∃ vv, decodeVersion codec store reply.version = .ok vv) ∧ Brings codec doc reply.changes) := by
  unfold Peer.absorb
  cases hdecode : decodeVersion codec store reply.version with
  | error e =>
      refine iff_of_true (fun _ => Iff.rfl) ?_
      rintro ⟨⟨vv, hvv⟩, _⟩
      cases hvv
  | ok vv =>
      cases hmerge : mergeB64Report codec doc reply.changes with
      | error e => exact iff_of_true (fun _ => Iff.rfl) fun h => not_brings_of_error hmerge h.2
      | ok pair =>
          obtain ⟨report, merged⟩ := pair
          have iff : SameOps doc merged ↔
              ¬ ((∃ vv', Except.ok vv = Except.ok (ε := WireError) vv') ∧ Brings codec doc reply.changes) := by
            rw [sameOps_iff_of_merge hmerge]
            exact not_congr ⟨fun brings => ⟨⟨vv, rfl⟩, brings⟩, fun h => h.2⟩
          dsimp only
          split <;> exact iff

end Fence

/-! ### Replicas of different epochs -/

/-- A copy that stays in its epoch: its directory names it or will, and whatever the copy holds, has
parked or has on disk was written in that epoch. -/
structure Within (written : List (Nat × SyncOp)) (l : Loaded) : Prop where
  inEpoch : l.store.InEpoch
  counted : ∀ o, (o ∈ l.doc.applied ∨ o ∈ l.doc.parked ∨ l.store.dir.Has o) →
    (l.store.epoch, o) ∈ written

/-- A message whose version is readable in one epoch only, carrying operations of that epoch. -/
def Told (codec : Codec) (written : List (Nat × SyncOp)) (version changes : Text) : Prop :=
  ∃ epoch, (∀ store vv, decodeVersion codec store version = .ok vv → store.epoch = epoch) ∧
    ∀ ops, incoming codec changes = some ops → ∀ o ∈ ops, (epoch, o) ∈ written

/-- No operation has left the epoch it was written in, on a replica or on the way. -/
structure Fenced {ι : Type} (codec : Codec) (net : Net ι) : Prop where
  site : ∀ i, Within net.written (net.site i).loaded
  requests : ∀ i j out, (i, j, out) ∈ net.requests → Told codec net.written out.have out.changes
  replies : ∀ i j reply, (i, j, reply) ∈ net.replies →
    Told codec net.written reply.version reply.changes

theorem Within.mono {written written' : List (Nat × SyncOp)} {l : Loaded} (h : Within written l)
    (sub : ∀ p ∈ written, p ∈ written') : Within written' l :=
  ⟨h.inEpoch, fun o ho => sub _ (h.counted o ho)⟩

theorem Told.mono {codec : Codec} {written written' : List (Nat × SyncOp)} {version changes : Text}
    (h : Told codec written version changes) (sub : ∀ p ∈ written, p ∈ written') :
    Told codec written' version changes := by
  obtain ⟨epoch, one, counted⟩ := h
  exact ⟨epoch, one, fun ops hops o ho => sub _ (counted ops hops o ho)⟩

variable {written : List (Nat × SyncOp)}

/-- A move that takes in and writes only operations of the replica's own epoch stays within it. -/
theorem Within.move {permit : Permit} {l l' : Loaded} (h : Within written l)
    (arrives : ∀ ops, permit.arrives ops → ∀ o ∈ ops, (l.store.epoch, o) ∈ written)
    (writes : ∀ o, permit.writes o → (l.store.epoch, o) ∈ written) (move : Move permit l l') :
    Within written l' ∧ l'.store.epoch = l.store.epoch := by
  cases move with
  | keep same =>
      refine ⟨⟨same.inEpoch h.inEpoch, ?_⟩, same.epoch⟩
      rintro o (held | parked | ⟨name, ops, hlookup, hmem⟩) <;> rw [same.epoch]
      · exact h.counted o (Or.inl held)
      · exact h.counted o (Or.inr (Or.inl parked))
      · exact h.counted o (Or.inr (Or.inr ⟨name, ops, same.blocks ▸ hlookup, hmem⟩))
  | flush io =>
      obtain ⟨inside, hepoch⟩ := @InEpoch.flush io l.doc _ h.inEpoch
      refine ⟨⟨inside, ?_⟩, hepoch⟩
      rintro o (held | parked | has) <;> rw [hepoch]
      · exact h.counted o (Or.inl held)
      · exact h.counted o (Or.inr (Or.inl parked))
      · rcases has_of_flush has with has | held
        · exact h.counted o (Or.inr (Or.inr has))
        · exact h.counted o (Or.inl held)
  | take hops =>
      refine ⟨⟨h.inEpoch, ?_⟩, rfl⟩
      rintro o (held | parked | has)
      · rcases LoroDoc.mem_of_mem_takeOps held with held | parked | new
        · exact h.counted o (Or.inl held)
        · exact h.counted o (Or.inr (Or.inl parked))
        · exact arrives _ hops o new
      · rcases LoroDoc.mem_of_takeOps_parked parked with parked | new
        · exact h.counted o (Or.inr (Or.inl parked))
        · exact arrives _ hops o new
      · exact h.counted o (Or.inr (Or.inr has))
  | @edit deps body ready hwrites =>
      obtain ⟨happlied, hparked⟩ : (l.doc.commit deps body).applied =
          l.doc.applied ++ [l.doc.nextOp deps body] ∧
            (l.doc.commit deps body).parked = l.doc.parked := by
        simp [LoroDoc.commit, ready]
      refine ⟨⟨h.inEpoch, ?_⟩, rfl⟩
      rintro o (held | parked | has)
      · rw [happlied] at held
        rcases List.mem_append.mp held with held | new
        · exact h.counted o (Or.inl held)
        · exact List.mem_singleton.mp new ▸ writes _ hwrites
      · rw [hparked] at parked
        exact h.counted o (Or.inr (Or.inl parked))
      · exact h.counted o (Or.inr (Or.inr has))
  | reload _ hload =>
      obtain ⟨inside, same⟩ := h.inEpoch.reopened hload
      refine ⟨⟨inside, fun o ho => ?_⟩, same⟩
      rw [same]
      obtain ⟨at_, stamp, is⟩ := reopened_eq l.store.stamp _
      rw [is] at ho
      refine h.counted o (Or.inr (Or.inr ?_))
      rcases ho with held | parked | has
      · exact load_has hload (Or.inl held)
      · exact load_has hload (Or.inr parked)
      · obtain ⟨name, ops, hlookup, hmem⟩ := has
        exact ⟨name, ops, (load_cases hload).2.1 ▸ hlookup, hmem⟩

theorem Within.moves {permit : Permit} {l l' : Loaded} (h : Within written l)
    (arrives : ∀ ops, permit.arrives ops → ∀ o ∈ ops, (l.store.epoch, o) ∈ written)
    (writes : ∀ o, permit.writes o → (l.store.epoch, o) ∈ written) (moves : Moves permit l l') :
    Within written l' ∧ l'.store.epoch = l.store.epoch := by
  induction moves with
  | refl => exact ⟨h, rfl⟩
  | tail _ move ih =>
      obtain ⟨within, same⟩ := ih
      obtain ⟨within', same'⟩ := within.move (same ▸ arrives) (same ▸ writes) move
      exact ⟨within', same'.trans same⟩

section Run

variable {ι : Type} [DecidableEq ι] {codec : Codec}

/-- What a replica sends is readable in its own epoch only and carries its own operations. -/
theorem told_of_act (lawful : codec.Lawful) {site : Site ι} {e : Event ι} (h : Within written site.loaded)
    (same : (site.act codec e).1.loaded.store.epoch = site.loaded.store.epoch) :
    (∀ j out, (site.act codec e).2 = .request j out → Told codec written out.have out.changes) ∧
      ∀ j reply, (site.act codec e).2 = .reply j reply →
        Told codec written reply.version reply.changes := by
  have fits := h.inEpoch.lt
  have told : ∀ {io store theirs changes} {version : List UInt8},
      changesSinceB64 codec io site.loaded.store site.loaded.doc theirs = (.ok changes, store) →
      version ≠ [] → Told codec written (spell site.loaded.store.epoch version) changes := by
    intro io store theirs changes version hout header
    refine ⟨_, fun _ _ hdecode => epoch_of_decodeVersion fits header hdecode, ?_⟩
    exact fun ops hops o ho => h.counted o (Or.inl (mem_of_changesSinceB64 lawful hout hops ho))
  constructor
  · intro j out hsent
    cases e with
    | outgoing i j' io =>
        simp only [Site.act] at hsent
        split at hsent
        · cases hsent
        · rename_i hout
          cases hsent
          rcases outgoing_cases hout with ⟨_, _, hr⟩ | ⟨_, r, hchanges, ⟨_, hr⟩ | ⟨changes, rfl, hr⟩⟩
          · cases hr
            exact ⟨_, fun _ _ hdecode =>
              epoch_of_decodeVersion fits (lawful.versionHeader _) hdecode, fun _ hops => by cases hops⟩
          · cases hr
          · cases hr
            exact told hchanges (lawful.versionHeader _)
    | answer | restart =>
        simp only [Site.act] at hsent
        split at hsent <;> cases hsent
    | _ => cases hsent
  · intro j reply hsent
    cases e with
    | answer i j' request first second =>
        simp only [Site.act] at hsent same
        split at hsent
        · cases hsent
        · rename_i reply' doc store hanswer
          cases hsent
          rw [hanswer] at same
          rcases answer_cases hanswer with ⟨_, _, hr, _⟩ | ⟨_, r, s₁, _, hchanges, ⟨_, _, hr, _⟩ |
            ⟨_, _, _, _, ⟨_, hr⟩ | ⟨_, changes, _, rfl, hr⟩⟩⟩
          · cases hr
          · cases hr
          · cases hr
          · cases hr
            have sent := told hchanges (lawful.versionHeader doc.version)
            rw [← same] at sent
            exact sent
    | outgoing | restart =>
        simp only [Site.act] at hsent
        split at hsent <;> cases hsent
    | _ => cases hsent

/-- Step lemma: no event lets an operation leave its epoch. -/
theorem fenced_step (lawful : codec.Lawful) {net : Net ι} {e : Event ι} (allowed : Allowed net e)
    (h : Fenced codec net) : Fenced codec (step codec net e) := by
  have sub : ∀ p ∈ net.written, p ∈ (step codec net e).written :=
    fun p hp => List.mem_append_left _ hp
  have arrives : ∀ ops, (permit codec (net.site e.actor) e).arrives ops →
      ∀ o ∈ ops, ((net.site e.actor).loaded.store.epoch, o) ∈ (step codec net e).written := by
    intro ops hops o ho
    cases e with
    | answer i j request first second =>
        obtain ⟨⟨vv, hdecode⟩, hincoming⟩ := hops
        obtain ⟨epoch, one, counted⟩ := h.requests j i request allowed
        cases one _ vv hdecode
        exact sub _ (counted ops hincoming o ho)
    | absorb i j sent reply io =>
        obtain ⟨⟨vv, hdecode⟩, hincoming⟩ := hops
        obtain ⟨epoch, one, counted⟩ := h.replies j i reply allowed
        cases one _ vv hdecode
        exact sub _ (counted ops hincoming o ho)
    | _ => exact hops.elim
  have writes : ∀ o, (permit codec (net.site e.actor) e).writes o →
      ((net.site e.actor).loaded.store.epoch, o) ∈ (step codec net e).written :=
    fun o ho => List.mem_append_right _ ho
  obtain ⟨moved, same⟩ :=
    ((h.site e.actor).mono sub).moves arrives writes (act_moves codec _ e)
  obtain ⟨toldRequest, toldReply⟩ := told_of_act lawful ((h.site e.actor).mono sub) same
  refine ⟨fun i => ?_, fun i j out hout => ?_, fun i j reply hreply => ?_⟩
  · by_cases actor : i = e.actor
    · subst actor
      rw [step_site_self]
      exact moved
    · rw [step_site_ne net actor]
      exact (h.site i).mono sub
  · rcases mem_requests_step hout with old | ⟨rfl, hsent⟩
    · exact (h.requests i j out old).mono sub
    · exact toldRequest j out hsent
  · rcases mem_replies_step hreply with old | ⟨rfl, hsent⟩
    · exact (h.replies i j reply old).mono sub
    · exact toldReply j reply hsent

/-- Run lemma: whatever order requests and replies are taken in, repeated or lost. -/
theorem fenced_run (lawful : codec.Lawful) {net net' : Net ι}
    (run : Relation.ReflTransGen (Step codec) net net') (h : Fenced codec net) : Fenced codec net' := by
  induction run with
  | refl => exact h
  | tail _ hstep ih =>
      obtain ⟨e, allowed, rfl⟩ := hstep
      exact fenced_step lawful allowed ih

end Run

/-- Replicas before anything was sent: each speaks in its own epoch, and what it has counts as written
there. -/
structure Start {ι : Type} (net : Net ι) : Prop where
  requests : net.requests = []
  replies : net.replies = []
  site : ∀ i, Within net.written (net.site i).loaded

/-- **Epoch fence.** Answering changes the document only if the caller's version names the store's
epoch, except exactly when that version is empty and the changes bring something; the same holds of
taking in a reply and its version. Between replicas, which never send an empty version, no operation
leaves the epoch it was written in. -/
theorem epoch_fence (codec : Codec) (lawful : codec.Lawful) :
    (∀ first second store doc «have» changes,
      ((¬ SameOps doc (answer codec first second store doc «have» changes).2.1 →
          NamesEpoch codec «have» store.epoch) ↔ («have» ≠ [] ∨ ¬ Brings codec doc changes))) ∧
      (∀ io (peer : Peer) store doc sent reply,
        ((¬ SameOps doc (peer.absorb codec io store doc sent reply).2.2.1 →
            NamesEpoch codec reply.version store.epoch) ↔
          (reply.version ≠ [] ∨ ¬ Brings codec doc reply.changes))) ∧
      ∀ (ι : Type) [DecidableEq ι] (net net' : Net ι), Start net →
        Relation.ReflTransGen (Step codec) net net' →
          ∀ i, ∀ o ∈ (net'.site i).loaded.doc.applied,
            ((net'.site i).loaded.store.epoch, o) ∈ net'.written := by
  have fence : ∀ (store : BlockStore) (version : Text) (brings : Prop),
      ((¬ ¬ ((∃ vv, decodeVersion codec store version = .ok vv) ∧ brings) →
          NamesEpoch codec version store.epoch) ↔ (version ≠ [] ∨ ¬ brings)) := by
    intro store version brings
    rw [not_not]
    constructor
    · intro named
      by_cases told : version = []
      · refine Or.inr fun hbrings => (named ⟨⟨∅, ?_⟩, hbrings⟩).1 told
        rw [decodeVersion, if_pos told]
      · exact Or.inl told
    · rintro (told | nothing) ⟨⟨vv, hdecode⟩, hbrings⟩
      · exact namesEpoch_of_decodeVersion hdecode told
      · exact absurd hbrings nothing
  refine ⟨fun first second store doc «have» changes => ?_, fun io peer store doc sent reply => ?_,
    fun ι _ net net' start run i o ho => ?_⟩
  · rw [sameOps_answer_iff]
    exact fence store «have» _
  · rw [sameOps_absorb_iff]
    exact fence store reply.version _
  · have fenced : Fenced codec net := by
      refine ⟨start.site, ?_, ?_⟩
      · rw [start.requests]
        exact fun _ _ _ h => by cases h
      · rw [start.replies]
        exact fun _ _ _ h => by cases h
    exact ((fenced_run lawful run fenced).site i).counted o (Or.inl ho)

/-! ### A rebuilt pile and an old one -/

/-- An old pile of epoch 0 and a rebuilt one of epoch 1. -/
def twoPiles : Net Bool where
  site i :=
    { loaded := if i then opened (.text ['1']) 2 else opened .absent 1
      peer := fun _ => { their := [] } }
  requests := []
  replies := []
  written := []

/-- The old one edits and asks the rebuilt one. -/
def asked : Net Bool :=
  step plainCodec (step plainCodec twoPiles (.edit false [] 7)) (.outgoing false true {})

/-- The delta of an operation of the old pile. -/
def oldDelta : Text := Base64.encode (plainCodec.encodeOps [⟨1, 0, [], 7⟩])

/-- The rebuilt pile does not merge the old delta under the old version, and a run between the two
keeps the edit where it was written. -/
theorem epoch_fence_twoPiles :
    (¬ SameOps (.open 2) (answer plainCodec {} {} (opened (.text ['1']) 2).store (.open 2)
        (versionB64 plainCodec (opened .absent 1).store (.open 1)) oldDelta).2.1 →
      NamesEpoch plainCodec (versionB64 plainCodec (opened .absent 1).store (.open 1)) 1) ∧
      ∀ i, ∀ o ∈ (asked.site i).loaded.doc.applied,
        ((asked.site i).loaded.store.epoch, o) ∈ asked.written := by
  obtain ⟨answered, _, run⟩ := epoch_fence plainCodec plainCodec_lawful
  refine ⟨(answered {} {} (opened (.text ['1']) 2).store (.open 2) _ oldDelta).mpr
    (Or.inl (versionB64_ne_nil plainCodec_lawful _ _)), ?_⟩
  have start : Start twoPiles := by
    refine ⟨rfl, rfl, fun i => ?_⟩
    cases i <;>
      · refine ⟨.inl ⟨rfl, rfl⟩, fun o ho => ?_⟩
        rcases ho with held | parked | ⟨_, _, hlookup, _⟩
        · cases held
        · cases parked
        · cases hlookup
  exact run Bool twoPiles asked start
    ((Relation.ReflTransGen.refl.tail ⟨.edit false [] 7, trivial, rfl⟩).tail
      ⟨.outgoing false true {}, trivial, rfl⟩)

/-- Under the empty version the rebuilt pile merges the old delta. -/
theorem empty_version_lets_all_in :
    ¬ (¬ SameOps (.open 2) (answer plainCodec {} {} (opened (.text ['1']) 2).store (.open 2) [] oldDelta).2.1 →
      NamesEpoch plainCodec [] 1) := by
  intro fence
  have fits : (plainCodec.encodeOps [⟨1, 0, [], 7⟩]).length ≤ MAX_BYTES := by decide
  obtain ⟨_, ops, hops, hmem⟩ := incoming_encode plainCodec_lawful fits
  have merged : ¬ SameOps (.open 2)
      (answer plainCodec {} {} (opened (.text ['1']) 2).store (.open 2) [] oldDelta).2.1 := by
    rw [sameOps_answer_iff, not_not]
    exact ⟨⟨∅, rfl⟩, ops, hops, ⟨1, 0, [], 7⟩, Or.inr ((hmem _).mpr (List.mem_singleton_self _)), by decide⟩
  exact (fence merged).1 rfl

end Khor.Sync.EpochFence
