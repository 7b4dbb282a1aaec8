/-
Module: Khor.Sync.Replicas
Purpose: Two replicas of one document. Each writer name belongs to one of them, and what a replica
  sends it has flushed first; so over every history of edits, failed rounds, lost and repeated
  messages and restarts an operation that is found anywhere outside its writer's replica is in that
  replica's block files, where no restart can lose it or mint its name again.
Trusted boundary: block files read back as they were written
Main exports: Side, Sound, Consistent, Permitted, consistent_step
-/
import Khor.Sync.Durability
import Khor.Sync.Network

namespace Khor.Sync.Replicas

open Khor.Sync.BlockStore Khor.Sync.Network
open Khor.Sync.Durability (OnShelf has_of_blocks has_flush has_keepMerged)

/-- The two replicas. -/
inductive Side where
  | a
  | b
deriving DecidableEq

/-- The other one. -/
def Side.other : Side → Side
  | .a => .b
  | .b => .a

@[simp] theorem other_other (s : Side) : s.other.other = s := by
  cases s <;> rfl

theorem other_ne (s : Side) : s.other ≠ s := by
  cases s <;> decide

theorem eq_other_of_ne {s t : Side} (h : t ≠ s) : t = s.other := by
  cases s <;> cases t <;> first | rfl | exact absurd rfl h

section TwoSides

variable (owner : Writer → Side)

/-- One replica, given what is in the other one's block files (`far`): its accounting holds, its block
files are a causal history that it holds, and whatever it has of the other side is in `far`. -/
structure Sound (epoch : Nat) (s : Side) (far : SyncOp → Prop) (l : Loaded) : Prop where
  named : owner l.doc.peer = s
  shelf : OnShelf l.doc l.store
  kept : ∀ o, l.store.dir.Has o → o ∈ l.doc.applied
  log : ∃ log, CausalLog log ∧ ∀ o, o ∈ log ↔ l.store.dir.Has o
  foreign : ∀ o, (o ∈ l.doc.applied ∨ o ∈ l.doc.parked) → owner o.writer ≠ s → far o
  own : ∀ o ∈ l.doc.parked, owner o.writer = s → l.store.dir.Has o
  atEpoch : l.store.epoch = epoch
  inEpoch : l.store.InEpoch

variable {owner} {epoch : Nat} {s : Side} {far : SyncOp → Prop} {l l' : Loaded}

theorem Sound.mono {far' : SyncOp → Prop} (h : Sound owner epoch s far l)
    (sub : ∀ o, far o → far' o) : Sound owner epoch s far' l :=
  { h with foreign := fun o ho ne => sub o (h.foreign o ho ne) }

/-- What a permit allows at a sound replica: what comes in is in the other side's block files, and in
this side's own if this side wrote it; the directory is opened under a name of this side, and every
block file reads. -/
structure Proper (owner : Writer → Side) (s : Side) (far : SyncOp → Prop) (l : Loaded)
    (permit : Permit) : Prop where
  arrives : ∀ ops, permit.arrives ops → ∀ o ∈ ops,
    far o ∧ (owner o.writer = s → l.store.dir.Has o)
  opens : ∀ unread peer, permit.opens unread peer → owner peer = s ∧ unread = fun _ => false

theorem Proper.mono {permit : Permit} (h : Proper owner s far l permit)
    (grows : ∀ o, l.store.dir.Has o → l'.store.dir.Has o) : Proper owner s far l' permit :=
  ⟨fun ops hops o ho => (h.arrives ops hops o ho).imp_right fun own mine => grows o (own mine), h.opens⟩

/-- Reading the directory back gives exactly what is in its block files. -/
theorem Sound.mem_reload (h : Sound owner epoch s far l) {io : Io} {peer : Writer}
    {pen : Option Nat} (hload : load io (fun _ => false) l.store.dir peer pen l.pile = .ok l')
    (o : SyncOp) : o ∈ l'.doc.applied ↔ l.store.dir.Has o := by
  refine ⟨fun ho => load_has hload (Or.inl ho), fun has => ?_⟩
  obtain ⟨log, causal, hlog⟩ := h.log
  have reaches := load_reaches hload causal fun o ho => (hlog o).mp ho
  have coherent : Coherent {o | l.store.dir.Has o} :=
    fun o ho o' ho' same => l.doc.causal.unique (h.kept o ho) (h.kept o' ho') same
  exact subset_of_reach_le coherent l'.doc.causal (fun o ho => load_has hload (Or.inl ho)) causal
    (fun o ho => (hlog o).mp ho) reaches o ((hlog o).mpr has)

/-- Step lemma for one local move: a sound replica stays sound and loses no block file. -/
theorem Sound.move (h : Sound owner epoch s far l) {permit : Permit} (proper : Proper owner s far l permit)
    (move : Move permit l l') : Sound owner epoch s far l' ∧ ∀ o, l.store.dir.Has o → l'.store.dir.Has o := by
  cases move with
  | @keep store same =>
      have hasIff : ∀ o, store.dir.Has o ↔ l.store.dir.Has o :=
        fun o => ⟨has_of_blocks same.blocks.symm, has_of_blocks same.blocks⟩
      refine ⟨⟨h.named, h.shelf.of_books same.blocks same.onDisk, ?_, ?_, h.foreign, ?_,
        same.epoch.trans h.atEpoch, same.inEpoch h.inEpoch⟩, fun o => (hasIff o).mpr⟩
      · exact fun o ho => h.kept o ((hasIff o).mp ho)
      · obtain ⟨log, causal, hlog⟩ := h.log
        exact ⟨log, causal, fun o => (hlog o).trans (hasIff o).symm⟩
      · exact fun o ho mine => (hasIff o).mpr (h.own o ho mine)
  | flush io =>
      obtain ⟨inside, hepoch⟩ := @InEpoch.flush io l.doc _ h.inEpoch
      have grows : ∀ o, l.store.dir.Has o → (l.store.flush io l.doc).2.dir.Has o :=
        fun o ho => has_flush rfl ho
      have kept : ∀ o, (l.store.flush io l.doc).2.dir.Has o → o ∈ l.doc.applied :=
        fun o ho => (has_of_flush ho).elim (h.kept o) id
      refine ⟨⟨h.named, h.shelf.flush rfl, kept, ?_, h.foreign, ?_, hepoch.trans h.atEpoch, inside⟩, grows⟩
      · rcases h.shelf.flush_blocks (Prod.eta (l.store.flush io l.doc)).symm with same | all
        · obtain ⟨log, causal, hlog⟩ := h.log
          refine ⟨log, causal, fun o => (hlog o).trans ?_⟩
          exact ⟨has_of_blocks same, has_of_blocks same.symm⟩
        · exact ⟨l.doc.applied, l.doc.causal, fun o => ⟨all o, kept o⟩⟩
      · exact fun o ho mine => grows o (h.own o ho mine)
  | @take ops hops =>
      refine ⟨⟨h.named, h.shelf.takeOps ops, ?_, h.log, ?_, ?_, h.atEpoch, h.inEpoch⟩, fun o => id⟩
      · exact fun o ho => l.doc.subset_takeOps ops (h.kept o ho)
      · intro o ho ne
        rcases ho with held | parked
        · rcases LoroDoc.mem_of_mem_takeOps held with held | parked | new
          · exact h.foreign o (Or.inl held) ne
          · exact h.foreign o (Or.inr parked) ne
          · exact (proper.arrives ops hops o new).1
        · rcases LoroDoc.mem_of_takeOps_parked parked with parked | new
          · exact h.foreign o (Or.inr parked) ne
          · exact (proper.arrives ops hops o new).1
      · intro o ho mine
        rcases LoroDoc.mem_of_takeOps_parked ho with parked | new
        · exact h.own o parked mine
        · exact (proper.arrives ops hops o new).2 mine
  | @edit deps body ready _ =>
      obtain ⟨happlied, hparked⟩ : (l.doc.commit deps body).applied =
          l.doc.applied ++ [l.doc.nextOp deps body] ∧
            (l.doc.commit deps body).parked = l.doc.parked := by
        simp [LoroDoc.commit, ready]
      refine ⟨⟨(congrArg owner (l.doc.commit_peer deps body)).trans h.named,
        h.shelf.commit deps body, ?_, h.log, ?_, ?_, h.atEpoch, h.inEpoch⟩, fun o => id⟩
      · intro o ho
        rw [happlied]
        exact List.mem_append_left _ (h.kept o ho)
      · intro o ho ne
        rw [happlied, hparked] at ho
        rcases ho with held | parked
        · rcases List.mem_append.mp held with held | new
          · exact h.foreign o (Or.inl held) ne
          · -- what this replica writes is its own
            rw [List.mem_singleton.mp new] at ne
            exact absurd h.named ne
        · exact h.foreign o (Or.inr parked) ne
      · intro o ho mine
        rw [hparked] at ho
        exact h.own o ho mine
  | @reload loaded io unread peer pen opens hload =>
      obtain ⟨mine, rfl⟩ := proper.opens unread peer opens
      obtain ⟨inside, hepoch⟩ := h.inEpoch.reopened hload
      obtain ⟨hdoc, hblocks, _⟩ := load_cases hload
      have hasIff : ∀ o, loaded.store.dir.Has o ↔ l.store.dir.Has o :=
        fun o => ⟨has_of_blocks hblocks.symm, has_of_blocks hblocks⟩
      obtain ⟨at_, stamp, is⟩ := reopened_eq l.store.stamp loaded
      rw [is] at inside hepoch ⊢
      refine ⟨⟨?_, (OnShelf.load hload).of_books rfl rfl, ?_, ?_, ?_, ?_, hepoch.trans h.atEpoch, inside⟩,
        fun o => (hasIff o).mpr⟩
      · rw [hdoc, readBlocks_peer]
        exact mine
      · exact fun o ho => (h.mem_reload hload o).mpr ((hasIff o).mp ho)
      · obtain ⟨log, causal, hlog⟩ := h.log
        exact ⟨log, causal, fun o => (hlog o).trans (hasIff o).symm⟩
      · intro o ho ne
        exact h.foreign o (Or.inl (h.kept o (load_has hload ho))) ne
      · exact fun o ho _ => (hasIff o).mpr (load_has hload (Or.inr ho))

theorem Sound.moves (h : Sound owner epoch s far l) {permit : Permit} (proper : Proper owner s far l permit)
    (moves : Moves permit l l') : Sound owner epoch s far l' ∧ ∀ o, l.store.dir.Has o → l'.store.dir.Has o := by
  induction moves with
  | refl => exact ⟨h, fun o => id⟩
  | tail _ move ih =>
      obtain ⟨sound, grows⟩ := ih
      obtain ⟨sound', grows'⟩ := sound.move (proper.mono grows) move
      exact ⟨sound', fun o ho => grows' o (grows o ho)⟩

end TwoSides

/-! ### Messages -/

/-- What is in a replica's block files. -/
def has (net : Net Side) (i : Side) (o : SyncOp) : Prop := (net.site i).loaded.store.dir.Has o

/-- A delta that carries only operations of `of`. -/
def Carries (codec : Codec) (of : SyncOp → Prop) (changes : Text) : Prop :=
  ∀ ops, incoming codec changes = some ops → ∀ o ∈ ops, of o

/-- A version that every copy of the epoch reads, and that covers only operations of `of`. -/
def Reaches (codec : Codec) (epoch : Nat) (of : SyncOp → Prop) (version : Text) : Prop :=
  version ≠ [] ∧ ∃ vv, (∀ store : BlockStore, epoch = store.epoch →
      decodeVersion codec store version = .ok vv) ∧
    ∀ w n, n < vv.upTo w → ∃ o, of o ∧ o.writer = w ∧ o.counter = n

/-- Both replicas are sound, and every message ever sent carries and counts only what its sender has in
block files. -/
structure Consistent (codec : Codec) (owner : Writer → Side) (epoch : Nat) (net : Net Side) :
    Prop where
  site : ∀ i, Sound owner epoch i (has net i.other) (net.site i).loaded
  requests : ∀ i j out, (i, j, out) ∈ net.requests → j = i.other ∧ Carries codec (has net i) out.changes
  replies : ∀ i j reply, (i, j, reply) ∈ net.replies →
    j = i.other ∧ Carries codec (has net i) reply.changes ∧
      Reaches codec epoch (has net i) reply.version

/-- The events of the history: messages go to the other replica and arrive only if they were sent, and a
restart opens the directory under a name of its replica, every block file reading. -/
def Permitted (owner : Writer → Side) (net : Net Side) (e : Event Side) : Prop :=
  Allowed net e ∧
    match e with
    | .outgoing i j _ | .remember i j _ => j = i.other
    | .restart i _ unread peer _ => owner peer = i ∧ unread = fun _ => false
    | _ => True

section Messages

variable {codec : Codec} {owner : Writer → Side} {epoch : Nat}

theorem Carries.mono {of of' : SyncOp → Prop} {changes : Text} (h : Carries codec of changes)
    (sub : ∀ o, of o → of' o) : Carries codec of' changes :=
  fun ops hops o ho => sub o (h ops hops o ho)

theorem Reaches.mono {of of' : SyncOp → Prop} {version : Text} (h : Reaches codec epoch of version)
    (sub : ∀ o, of o → of' o) : Reaches codec epoch of' version := by
  obtain ⟨told, vv, hdecode, hcover⟩ := h
  refine ⟨told, vv, hdecode, fun w n lt => ?_⟩
  obtain ⟨o, ho, hid⟩ := hcover w n lt
  exact ⟨o, sub o ho, hid⟩

variable {net : Net Side} {e : Event Side} {doc : LoroDoc} {store : BlockStore}

/-- Two operations with one name, each in the block files of either replica, are one operation: its
writer's replica holds both. -/
theorem Consistent.unique (h : Consistent codec owner epoch net) {o o' : SyncOp} {i j : Side}
    (ho : o ∈ (net.site i).loaded.doc.applied) (ho' : o' ∈ (net.site j).loaded.doc.applied) (same : o.id = o'.id) :
    o = o' := by
  have home : ∀ {p : SyncOp} {k : Side}, p ∈ (net.site k).loaded.doc.applied →
      p ∈ (net.site (owner p.writer)).loaded.doc.applied := by
    intro p k hp
    by_cases mine : owner p.writer = k
    · rw [mine]
      exact hp
    · have far := (h.site k).foreign p (Or.inl hp) mine
      rw [eq_other_of_ne mine]
      exact (h.site k.other).kept p far
  have writer : o.writer = o'.writer := (Prod.mk.inj same).1
  have hp := home ho
  have hp' := home ho'
  rw [writer] at hp
  exact (net.site (owner o'.writer)).loaded.doc.causal.unique hp hp' same

/-- Every operation either replica has in block files is held by its writer's replica on disk, so what
arrives at a replica and is its own is in its block files already. -/
theorem Consistent.own_of_has (h : Consistent codec owner epoch net) {i : Side} {o : SyncOp} (ho : has net i.other o)
    (mine : owner o.writer = i) : has net i o := by
  have held := (h.site i.other).kept o ho
  have ne : owner o.writer ≠ i.other := by
    rw [mine]
    exact (other_ne i).symm
  have far := (h.site i.other).foreign o (Or.inl held) ne
  rwa [other_other] at far

/-- What an event of the history permits is proper. -/
theorem Consistent.proper (h : Consistent codec owner epoch net) (permitted : Permitted owner net e) :
    Proper owner e.actor (has net e.actor.other) (net.site e.actor).loaded
      (permit codec (net.site e.actor) e) := by
  obtain ⟨allowed, who⟩ := permitted
  have arrives : ∀ {i : Side} {changes : Text} {ops : List SyncOp},
      Carries codec (has net i.other) changes → incoming codec changes = some ops → ∀ o ∈ ops,
        has net i.other o ∧ (owner o.writer = i → (net.site i).loaded.store.dir.Has o) :=
    fun carries hops o ho => ⟨carries _ hops o ho, h.own_of_has (carries _ hops o ho)⟩
  refine ⟨fun ops hops => ?_, fun unread peer opens => ?_⟩
  · cases e with
    | answer i j request first second =>
        obtain ⟨rfl, carries⟩ := h.requests j i request allowed
        exact arrives ((other_other j).symm ▸ carries) hops.2
    | absorb i j sent reply io =>
        obtain ⟨rfl, carries, _⟩ := h.replies j i reply allowed
        exact arrives ((other_other j).symm ▸ carries) hops.2
    | _ => exact hops.elim
  · cases e with
    | restart i io unread' peer' pen =>
        obtain ⟨rfl, rfl⟩ := opens
        exact who
    | _ => exact opens.elim

/-- A delta that was computed has everything the document holds in block files. -/
theorem has_of_changesSinceB64 {store' : BlockStore} {io : Io} {theirs changes : Text} (shelf : OnShelf doc store)
    (h : changesSinceB64 codec io store doc theirs = (.ok changes, store')) :
    ∀ o ∈ doc.applied, store'.dir.Has o := by
  rcases changesSinceB64_cases h with ⟨_, _, hr, _⟩ | ⟨_, _, _, hflush, ⟨_, hr⟩ | ⟨_, rfl, _⟩⟩
  · cases hr
  · cases hr
  · exact (shelf.flush_ok hflush).1

theorem onShelf_changesSinceB64 {store' : BlockStore} {io : Io} {theirs : Text} {r : Except WireError Text}
    (shelf : OnShelf doc store) (h : changesSinceB64 codec io store doc theirs = (r, store')) :
    OnShelf doc store' := by
  rcases changesSinceB64_cases h with ⟨_, _, _, rfl⟩ | ⟨_, _, _, hflush, _⟩
  · exact shelf
  · exact shelf.flush hflush

theorem onShelf_merge {doc' : LoroDoc} {changes : Text} {report : MergeReport} (shelf : OnShelf doc store)
    (h : mergeB64Report codec doc changes = .ok (report, doc')) : OnShelf doc' store := by
  rcases mergeB64Report_cases h with ⟨_, _, rfl⟩ | ⟨ops, _, _, rfl⟩
  · exact shelf
  · exact shelf.takeOps ops

/-- What a sound replica sends carries and counts only what it then has in block files. -/
theorem Sound.sent (lawful : codec.Lawful) {s : Side} {far : SyncOp → Prop} {site : Site Side}
    (h : Sound owner epoch s far site.loaded) (after : Sound owner epoch s far (site.act codec e).1.loaded) :
    (∀ j out, (site.act codec e).2 = .request j out →
        Carries codec (site.act codec e).1.loaded.store.dir.Has out.changes) ∧
      ∀ j reply, (site.act codec e).2 = .reply j reply →
        Carries codec (site.act codec e).1.loaded.store.dir.Has reply.changes ∧
          Reaches codec epoch (site.act codec e).1.loaded.store.dir.Has reply.version := by
  constructor
  · intro j out hsent
    cases e with
    | outgoing i j' io =>
        simp only [Site.act] at hsent ⊢
        split at hsent
        · cases hsent
        · rename_i out' store hout
          cases hsent
          rcases outgoing_cases hout with ⟨_, _, hr⟩ | ⟨_, r, hchanges, ⟨_, hr⟩ | ⟨changes, rfl, hr⟩⟩
          · cases hr
            intro ops hops
            cases hops
          · cases hr
          · cases hr
            intro ops hops o ho
            exact has_of_changesSinceB64 h.shelf hchanges o
              (mem_of_changesSinceB64 lawful hchanges hops ho)
    | answer | restart =>
        simp only [Site.act] at hsent
        split at hsent <;> cases hsent
    | _ => cases hsent
  · intro j reply hsent
    cases e with
    | answer i j' request first second =>
        have epochs := after.atEpoch
        have inside := after.inEpoch
        simp only [Site.act] at hsent epochs inside ⊢
        split at hsent
        · cases hsent
        · rename_i reply' doc store hanswer
          cases hsent
          rw [hanswer] at epochs inside
          rcases answer_cases hanswer with ⟨_, _, hr, _⟩ | ⟨_, r, s₁, _, hchanges, ⟨_, _, hr, _⟩ |
            ⟨report, _, hmerge, hkeep, ⟨_, hr⟩ | ⟨name, changes, rfl, rfl, hr⟩⟩⟩
          · cases hr
          · cases hr
          · cases hr
          · cases hr
            have merged := onShelf_merge (onShelf_changesSinceB64 h.shelf hchanges) hmerge
            obtain ⟨all, _⟩ := merged.keepMerged_ok hkeep
            refine ⟨fun ops hops o ho => ?_, versionB64_ne_nil lawful _ _, ?_⟩
            · exact has_keepMerged hkeep (has_of_changesSinceB64 h.shelf hchanges o
                (mem_of_changesSinceB64 lawful hchanges hops ho))
            · have fits : store.epoch < 2 ^ 32 := BlockStore.InEpoch.lt inside
              obtain ⟨vv, hdecode, hreach⟩ := decodeVersion_versionB64 lawful fits doc
              refine ⟨vv, fun other same => hdecode other ?_, fun w n lt => ?_⟩
              · exact Eq.trans epochs same
              · rw [hreach] at lt
                obtain ⟨o, ho, hid⟩ := doc.causal.exists_of_lt lt
                exact ⟨o, all o ho, hid⟩
    | outgoing | restart =>
        simp only [Site.act] at hsent
        split at hsent <;> cases hsent
    | _ => cases hsent

/-- To whom an event of the history sends. -/
theorem receiver_of_sent (h : Consistent codec owner epoch net) (permitted : Permitted owner net e) :
    (∀ j out, ((net.site e.actor).act codec e).2 = .request j out → j = e.actor.other) ∧
      ∀ j reply, ((net.site e.actor).act codec e).2 = .reply j reply → j = e.actor.other := by
  cases e with
  | outgoing i j io =>
      obtain ⟨_, rfl⟩ := permitted
      constructor <;>
        · intro k sent hsent
          simp only [Site.act] at hsent
          split at hsent <;> cases hsent <;> rfl
  | answer i j request first second =>
      obtain ⟨rfl, _⟩ := h.requests j i request permitted.1
      constructor <;>
        · intro k sent hsent
          simp only [Site.act] at hsent
          split at hsent <;> cases hsent <;> exact (other_other j).symm
  | restart i io unread peer pen =>
      constructor <;>
        · intro k sent hsent
          simp only [Site.act] at hsent
          split at hsent <;> cases hsent
  | _ => exact ⟨fun _ _ hsent => (by cases hsent), fun _ _ hsent => (by cases hsent)⟩

/-- Step lemma: every event of the history keeps the replicas consistent, and no block file is lost. -/
theorem consistent_step (lawful : codec.Lawful) (permitted : Permitted owner net e)
    (h : Consistent codec owner epoch net) : Consistent codec owner epoch (step codec net e) ∧
      ∀ i o, has net i o → has (step codec net e) i o := by
  obtain ⟨moved, grown⟩ := (h.site e.actor).moves (h.proper permitted) (act_moves codec _ e)
  obtain ⟨sentRequest, sentReply⟩ := (h.site e.actor).sent lawful moved
  obtain ⟨toRequest, toReply⟩ := receiver_of_sent h permitted
  have grows : ∀ i o, has net i o → has (step codec net e) i o := by
    intro i o ho
    by_cases actor : i = e.actor
    · subst actor
      rw [has, step_site_self]
      exact grown o ho
    · rw [has, step_site_ne net actor]
      exact ho
  have hasActor : has (step codec net e) e.actor =
      ((net.site e.actor).act codec e).1.loaded.store.dir.Has := by
    unfold has
    rw [step_site_self]
  refine ⟨⟨fun i => ?_, fun i j out hout => ?_, fun i j reply hreply => ?_⟩, grows⟩
  · by_cases actor : i = e.actor
    · subst actor
      rw [step_site_self]
      exact moved.mono (grows _)
    · rw [step_site_ne net actor]
      exact (h.site i).mono (grows _)
  · rcases mem_requests_step hout with old | ⟨rfl, hsent⟩
    · exact (h.requests i j out old).imp_right fun carries => carries.mono (grows i)
    · rw [hasActor]
      exact ⟨toRequest j out hsent, sentRequest j out hsent⟩
  · rcases mem_replies_step hreply with old | ⟨rfl, hsent⟩
    · obtain ⟨far, carries, reaches⟩ := h.replies i j reply old
      exact ⟨far, carries.mono (grows i), reaches.mono (grows i)⟩
    · rw [hasActor]
      exact ⟨toReply j reply hsent, sentReply j reply hsent⟩

end Messages

end Khor.Sync.Replicas
