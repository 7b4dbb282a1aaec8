/-
Module: Khor.Sync.Network
Purpose: Replicas that exchange requests and replies. A request or a reply, once sent, can be taken
  again or never; each replica edits, flushes, loses its process and reads its directory back, and
  every file step of every call may fail. Whatever an event does to a replica is a sequence of a few
  local moves, so an invariant is shown once for each move.
Trusted boundary: none
Main exports: Site, Net, Event, step, Move
-/
import Khor.Sync.Load
import Khor.Sync.Wire

namespace Khor.Sync.Network

open Khor.Sync.BlockStore

/-- One replica: its open copy, and what it remembers of each far side. -/
structure Site (ι : Type) where
  loaded : Loaded
  peer : ι → Peer

/-- Replicas and everything that was ever sent: requests and replies with their sender and their
receiver. `written` remembers each operation a replica wrote, with the epoch it was written in. -/
structure Net (ι : Type) where
  site : ι → Site ι
  requests : List (ι × ι × Outgoing)
  replies : List (ι × ι × Reply)
  written : List (Nat × SyncOp)

/-- What can happen to one of the replicas, with the outside's answers. -/
inductive Event (ι : Type) where
  | edit (i : ι) (deps : List (Writer × Nat)) (body : Nat)
  | flush (i : ι) (io : Io)
  | outgoing (i j : ι) (io : Io)
  | answer (i j : ι) (request : Outgoing) (first second : Io)
  | absorb (i j : ι) (sent : Outgoing) (reply : Reply) (io : Io)
  | remember (i j : ι) (their : Text)
  | restart (i : ι) (io : Io) (unread : BlockName → Bool) (peer : Writer) (pen : Option Nat)

/-- The replica an event happens to. -/
def Event.actor {ι : Type} : Event ι → ι
  | .edit i _ _ | .flush i _ | .outgoing i _ _ | .answer i _ _ _ _ | .absorb i _ _ _ _
  | .remember i _ _ | .restart i _ _ _ _ => i

/-- What a replica sends out, and to whom. -/
inductive Sent (ι : Type) where
  | nothing
  | request (far : ι) (out : Outgoing)
  | reply (far : ι) (reply : Reply)

section Steps

variable {ι : Type} [DecidableEq ι] (codec : Codec)

/-- A site with another document and store. -/
def Site.keep (site : Site ι) (doc : LoroDoc) (store : BlockStore) : Site ι :=
  { site with loaded := { site.loaded with doc := doc, store := store } }

/-- What an event makes of its replica, and what the replica sends. -/
def Site.act (site : Site ι) : Event ι → Site ι × Sent ι
  | .edit _ deps body =>
      (site.keep (site.loaded.doc.commit deps body) site.loaded.store, .nothing)
  | .flush _ io =>
      (site.keep site.loaded.doc (site.loaded.store.flush io site.loaded.doc).2, .nothing)
  | .outgoing _ j io =>
      match (site.peer j).outgoing codec io site.loaded.store site.loaded.doc with
      | (.error _, store) => (site.keep site.loaded.doc store, .nothing)
      | (.ok out, store) => (site.keep site.loaded.doc store, .request j out)
  | .answer _ j request first second =>
      match answer codec first second site.loaded.store site.loaded.doc request.have request.changes with
      | (.error _, doc, store) => (site.keep doc store, .nothing)
      | (.ok reply, doc, store) => (site.keep doc store, .reply j reply)
  | .absorb _ j sent reply io =>
      match (site.peer j).absorb codec io site.loaded.store site.loaded.doc sent reply with
      | (_, peer, doc, store) =>
          ({ site.keep doc store with peer := Function.update site.peer j peer }, .nothing)
  | .remember _ j their =>
      ({ site with peer := Function.update site.peer j { their := their } }, .nothing)
  | .restart _ io unread peer pen =>
      match load io unread site.loaded.store.dir peer pen site.loaded.pile with
      | .error _ => (site, .nothing)
      | .ok loaded => ({ loaded := loaded.reopened site.loaded.store.stamp, peer := fun _ => { their := [] } }, .nothing)

/-- What an event has its replica write. -/
def Site.wrote (site : Site ι) : Event ι → List (Nat × SyncOp)
  | .edit _ deps body =>
      ((site.loaded.doc.commit deps body).applied.drop site.loaded.doc.applied.length).map
        (site.loaded.store.epoch, ·)
  | _ => []

/-- The net after an event. -/
def step (net : Net ι) (e : Event ι) : Net ι :=
  let i := e.actor
  let (site, sent) := (net.site i).act codec e
  { site := Function.update net.site i site
    requests :=
      match sent with
      | .request j out => (i, j, out) :: net.requests
      | _ => net.requests
    replies :=
      match sent with
      | .reply j reply => (i, j, reply) :: net.replies
      | _ => net.replies
    written := net.written ++ (net.site i).wrote e }

/-- Only what was sent can arrive. -/
def Allowed (net : Net ι) : Event ι → Prop
  | .answer i j request _ _ => (j, i, request) ∈ net.requests
  | .absorb i j _ reply _ => (j, i, reply) ∈ net.replies
  | _ => True

/-- One event of a run. -/
def Step (net net' : Net ι) : Prop := ∃ e, Allowed net e ∧ net' = step codec net e

end Steps

/-! ### Local moves -/

/-- Two states of a store that agree on all that is written down: blocks, accounting and epoch. -/
structure SameShelf (s s' : BlockStore) : Prop where
  blocks : s'.dir.blocks = s.dir.blocks
  onDisk : s'.onDisk = s.onDisk
  epoch : s'.epoch = s.epoch
  epochFile : s'.dir.epochFile = s.dir.epochFile
  stamp : s'.stamp = s.stamp

theorem SameShelf.inEpoch {s s' : BlockStore} (same : SameShelf s s') (h : s.InEpoch) : s'.InEpoch := by
  unfold InEpoch
  rw [same.stamp, same.epoch, same.epochFile, same.blocks, readEpoch_of_file same.epochFile]
  exact h

/-- What may happen to a replica: the operations that can arrive, the ones it may write, and the
names it may open its directory under, with the block files that will not read. -/
structure Permit where
  arrives : List SyncOp → Prop
  writes : SyncOp → Prop
  opens : (BlockName → Bool) → Writer → Prop

/-- What one event can do to a replica, piece by piece. -/
inductive Move (permit : Permit) : Loaded → Loaded → Prop where
  | keep {l : Loaded} {store : BlockStore} (same : SameShelf l.store store) :
      Move permit l { l with store := store }
  | flush (l : Loaded) (io : Io) :
      Move permit l { l with store := (l.store.flush io l.doc).2 }
  | take {l : Loaded} {ops : List SyncOp} (arrives : permit.arrives ops) :
      Move permit l { l with doc := l.doc.takeOps ops }
  | edit {l : Loaded} {deps : List (Writer × Nat)} {body : Nat}
      (ready : Ready l.doc.applied (l.doc.nextOp deps body))
      (writes : permit.writes (l.doc.nextOp deps body)) :
      Move permit l { l with doc := l.doc.commit deps body }
  | reload {l loaded : Loaded} {io : Io} {unread : BlockName → Bool} {peer : Writer}
      {pen : Option Nat} (opens : permit.opens unread peer)
      (h : load io unread l.store.dir peer pen l.pile = .ok loaded) :
      Move permit l (loaded.reopened l.store.stamp)

abbrev Moves (permit : Permit) : Loaded → Loaded → Prop :=
  Relation.ReflTransGen (Move permit)

/-- Keeping a merge records it, reads it for the copy's own name, and flushes. -/
theorem keepMerged_moves {permit : Permit} (l : Loaded) (io : Io)
    (before : SyncVersion) (report : MergeReport) :
    Moves permit l { l with store := (l.store.keepMerged io before l.doc report).2 } := by
  have same : SameShelf l.store ((l.store.recordImport report).tookIn io before l.doc).2 := by
    unfold tookIn
    repeat' split
    all_goals exact ⟨rfl, rfl, rfl, rfl, rfl⟩
  exact (Relation.ReflTransGen.single (.keep same)).tail (.flush _ io)

section Wire

variable {codec : Codec} {permit : Permit}

theorem changesSinceB64_moves (codec : Codec) (l : Loaded) (io : Io) (theirs : Text) :
    Moves permit l { l with store := (changesSinceB64 codec io l.store l.doc theirs).2 } := by
  rcases changesSinceB64_store codec io l.store l.doc theirs with same | flushed
  · rw [same]
  · rw [flushed]
    exact .single (.flush l io)

theorem outgoing_moves (codec : Codec) (l : Loaded) (io : Io) (peer : Peer) :
    Moves permit l { l with store := (peer.outgoing codec io l.store l.doc).2 } := by
  rcases outgoing_cases (Prod.eta (peer.outgoing codec io l.store l.doc)).symm with
    ⟨_, same, _⟩ | ⟨_, out, hout, _⟩
  · rw [same]
  · have step : Moves permit l _ := changesSinceB64_moves codec l io peer.their
    rw [hout] at step
    exact step

/-- Merging and keeping a delta: nothing, or what it carries taken in; then kept. -/
theorem merge_moves {l : Loaded} {io : Io} {changes : Text} {report : MergeReport} {doc : LoroDoc}
    (hmerge : mergeB64Report codec l.doc changes = .ok (report, doc))
    (arrives : ∀ ops, incoming codec changes = some ops → permit.arrives ops) (before : SyncVersion) :
    Moves permit l
      { l with doc := doc, store := (l.store.keepMerged io before doc report).2 } := by
  rcases mergeB64Report_cases hmerge with ⟨_, rfl, rfl⟩ | ⟨ops, hops, rfl, rfl⟩
  · exact keepMerged_moves l io before _
  · exact (Relation.ReflTransGen.single (.take (arrives ops hops))).trans
      (keepMerged_moves { l with doc := l.doc.takeOps ops } io before _)

/-- Taking in a reply moves the replica only by what the reply carries, and only if its version is
readable here. -/
theorem absorb_moves {l : Loaded} {io : Io} {peer peer' : Peer} {sent : Outgoing} {reply : Reply}
    {r : Except WireError Round} {doc : LoroDoc} {store : BlockStore}
    (h : peer.absorb codec io l.store l.doc sent reply = (r, peer', doc, store))
    (arrives : ∀ vv ops, decodeVersion codec l.store reply.version = .ok vv →
      incoming codec reply.changes = some ops → permit.arrives ops) :
    Moves permit l { l with doc := doc, store := store } := by
  rcases absorb_cases h with
    ⟨_, _, _, rfl, rfl⟩ | ⟨vv, report, flushed, hdecode, hmerge, hkeep, _⟩
  · exact .refl
  · have moves := @merge_moves _ _ l io _ _ _ hmerge (arrives vv · hdecode) l.doc.version
    rw [hkeep] at moves
    exact moves

/-- Answering a request moves the replica only by what the request carries, and only if its version is
readable here. -/
theorem answer_moves {l : Loaded} {first second : Io} {«have» changes : Text}
    {r : Except WireError Reply} {doc : LoroDoc} {store : BlockStore}
    (h : answer codec first second l.store l.doc «have» changes = (r, doc, store))
    (arrives : ∀ vv ops, decodeVersion codec l.store «have» = .ok vv →
      incoming codec changes = some ops → permit.arrives ops) :
    Moves permit l { l with doc := doc, store := store } := by
  rcases answer_cases h with
    ⟨_, _, _, rfl, rfl⟩ | ⟨vv, out, s₁, hdecode, hout, outcome⟩
  · exact .refl
  · have flushed : Moves permit l _ := changesSinceB64_moves codec l first «have»
    rw [hout] at flushed
    rcases outcome with ⟨_, _, _, rfl, rfl⟩ | ⟨report, kept, hmerge, hkeep, _⟩
    · exact flushed
    · have merged := @merge_moves _ _ { l with store := s₁ } second _ _ _ hmerge
        (arrives vv · hdecode) l.doc.version
      rw [hkeep] at merged
      exact flushed.trans merged

end Wire

/-! ### Every event is a sequence of moves -/

section Steps

variable {ι : Type} [DecidableEq ι] {codec : Codec}

theorem step_site_self (net : Net ι) (e : Event ι) :
    (step codec net e).site e.actor = ((net.site e.actor).act codec e).1 := by
  simp [step]

variable {e : Event ι}

/-- An event touches no other replica. -/
theorem step_site_ne (net : Net ι) {j : ι} (h : j ≠ e.actor) : (step codec net e).site j = net.site j := by
  simp [step, h]

/-- A request of the net was sent before or is what the acting replica has just sent. -/
theorem mem_requests_step {net : Net ι} {i j : ι} {out : Outgoing} (h : (i, j, out) ∈ (step codec net e).requests) :
    (i, j, out) ∈ net.requests ∨
      (i = e.actor ∧ ((net.site e.actor).act codec e).2 = .request j out) := by
  simp only [step] at h
  split at h
  · rename_i hsent
    rcases List.mem_cons.mp h with new | old
    · cases new
      exact Or.inr ⟨rfl, hsent⟩
    · exact Or.inl old
  · exact Or.inl h

/-- A reply of the net was sent before or is what the acting replica has just sent. -/
theorem mem_replies_step {net : Net ι} {i j : ι} {reply : Reply} (h : (i, j, reply) ∈ (step codec net e).replies) :
    (i, j, reply) ∈ net.replies ∨
      (i = e.actor ∧ ((net.site e.actor).act codec e).2 = .reply j reply) := by
  simp only [step] at h
  split at h
  · rename_i hsent
    rcases List.mem_cons.mp h with new | old
    · cases new
      exact Or.inr ⟨rfl, hsent⟩
    · exact Or.inl old
  · exact Or.inl h

/-- What an event permits: what its message carries may come in if its version is readable here, an
edit writes its operation, and a restart opens the directory under its name. -/
def permit (codec : Codec) (site : Site ι) (e : Event ι) : Permit where
  arrives ops :=
    match e with
    | .answer _ _ request _ _ =>
        (∃ vv, decodeVersion codec site.loaded.store request.have = .ok vv) ∧
          incoming codec request.changes = some ops
    | .absorb _ _ _ reply _ =>
        (∃ vv, decodeVersion codec site.loaded.store reply.version = .ok vv) ∧
          incoming codec reply.changes = some ops
    | _ => False
  writes o := (site.loaded.store.epoch, o) ∈ site.wrote e
  opens unread peer :=
    match e with
    | .restart _ _ unread' peer' _ => unread = unread' ∧ peer = peer'
    | _ => False

omit [DecidableEq ι] in
/-- An edit writes exactly the operation it adds. -/
theorem wrote_edit {site : Site ι} {i : ι} {deps : List (Writer × Nat)} {body : Nat}
    (ready : Ready site.loaded.doc.applied (site.loaded.doc.nextOp deps body)) :
    site.wrote (.edit i deps body) =
      [(site.loaded.store.epoch, site.loaded.doc.nextOp deps body)] := by
  simp [Site.wrote, LoroDoc.commit, ready]

/-- Every event moves its replica by permitted local moves. -/
theorem act_moves (codec : Codec) (site : Site ι) (e : Event ι) :
    Moves (permit codec site e) site.loaded (site.act codec e).1.loaded := by
  cases e with
  | edit i deps body =>
      by_cases ready : Ready site.loaded.doc.applied (site.loaded.doc.nextOp deps body)
      · refine .single (.edit ready ?_)
        show _ ∈ site.wrote _
        rw [wrote_edit ready]
        exact List.mem_singleton_self _
      · have same : site.loaded.doc.commit deps body = site.loaded.doc := dif_neg ready
        simp only [Site.act, Site.keep, same]
        exact .refl
  | flush i io => exact .single (.flush _ io)
  | outgoing i j io =>
      have moves : Moves (permit codec site (.outgoing i j io)) site.loaded _ :=
        outgoing_moves codec site.loaded io (site.peer j)
      simp only [Site.act]
      split <;>
        · rename_i hout
          rw [hout] at moves
          exact moves
  | answer i j request first second =>
      simp only [Site.act]
      split <;>
        · rename_i hanswer
          exact answer_moves hanswer fun vv ops hdecode hops => ⟨⟨vv, hdecode⟩, hops⟩
  | absorb i j sent reply io =>
      exact absorb_moves (Prod.eta _).symm fun vv ops hdecode hops => ⟨⟨vv, hdecode⟩, hops⟩
  | remember i j their => exact .refl
  | restart i io unread peer pen =>
      simp only [Site.act]
      split
      · exact .refl
      · rename_i hload
        exact .single (.reload ⟨rfl, rfl⟩ hload)

end Steps

end Khor.Sync.Network
