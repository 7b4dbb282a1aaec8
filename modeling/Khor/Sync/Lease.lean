/-
Module: Khor.Sync.Lease
Purpose: How writer names are lent. A copy takes the lowest pen of the directory that nobody holds: its
  slot in the process's table, its file opened, its lock taken, and under the lock the name read or
  minted. Without a pen it takes a spare name of its process. A retired pen is a new file under the old
  slot. Whatever order copies of any number of processes do this in, no two hold one name.
Trusted boundary: file locks are exclusive, and a lock goes with the copy that holds it
Main exports: Hold, Stage, Copy, step, names_lent_apart
-/
import Khor.Lib.Runs
import Khor.Sync.PlainCodec
import Khor.Sync.StoreApply

namespace Khor.Sync.Lease

open Khor.Sync.BlockStore

/-- More copies than this and the next takes a spare name. -/
def PENS : Nat := 64

/-! ### The system -/

/-- A name lent in one process only, for one caller's name, and whether it is out. -/
structure Spare where
  proc : Nat
  caller : Writer
  name : Writer
  out : Bool
deriving DecidableEq

/-- What a copy's name is held by: the lock on a pen's open file, or an entry of the process's table. -/
inductive Hold where
  | pen (k file : Nat)
  | spare

/-- How far an open is: looking for a pen from `k` on, its slot claimed, its file open, the name lent,
the directory read. -/
inductive Stage where
  | scanning (k : Nat)
  | claimed (k : Nat)
  | opened (k file : Nat)
  | leased (name : Writer) (hold : Hold)
  | loaded (name : Writer) (hold : Hold) (l : Loaded)

/-- The name a copy holds, and by what. -/
def Stage.holds : Stage → Option (Writer × Hold)
  | .leased name hold | .loaded name hold _ => some (name, hold)
  | _ => none

/-- A copy that is being opened or is open, in a process, under its caller's name. -/
structure Copy where
  proc : Nat
  caller : Writer
  stage : Stage

/-- The directory, its pen files by slot and what each file ever made says, the tables of the processes,
the copies, every operation that ever left the machine or is on another, and two records: the callers'
names, and every name ever lent or to be lent here. -/
structure World where
  dir : Dir
  link : AList (fun _ : Nat => Nat)
  files : List (Option Writer)
  pensOut : List (Nat × Nat)
  lent : List Spare
  copies : AList (fun _ : Nat => Copy)
  far : List SyncOp
  callers : List (Nat × Writer)
  names : List Writer

/-- What a try for a pen's lock comes to, and whether a name it finds missing can be written. -/
inductive Lock where
  | blocked
  | failed
  | granted (written : Bool)

/-- What an open copy does. -/
inductive Act where
  | edit (deps : List (Writer × Nat)) (body : Nat)
  | flush (io : Io)
  /-- `Peer::outgoing`. -/
  | outgoing (io : Io) (peer : Peer)
  /-- `answer`, with the reply sent. -/
  | answer (first second : Io) («have» changes : Text)
  /-- `Peer::absorb`. -/
  | absorb (io : Io) (peer : Peer) (sent : Outgoing) (reply : Reply)
  /-- `table_b64`. -/
  | table (io : Io)
  /-- `Loaded::apply_checked`. -/
  | apply (io : StoreApply.ApplyIo) (spec : StoreApply.ApplySpec) (bytes : Bytes)
  /-- `BlockStore::absorb`: a block pulled from a far side. -/
  | takeBlock (io : Io) (name : BlockName) (bytes : Bytes)
  /-- A block read and pushed to a far side. -/
  | push (name : BlockName)

inductive Event where
  /-- `Lease::take` begins for copy `c`. -/
  | take (c proc : Nat) (caller fresh : Writer)
  | claim (c : Nat) (fresh : Writer)
  | openPen (c : Nat) (opens : Bool) (fresh : Writer)
  | lockPen (c : Nat) (lock : Lock) (fresh : Writer)
  | load (c : Nat) (io : Io) (unread : BlockName → Bool)
  | act (c : Nat) (a : Act)
  /-- The copy is dropped, or dies. -/
  | close (c : Nat)
  /-- Other machines write. -/
  | elsewhere (ops : List SyncOp)

/-- Whether a spare is of this process and caller. -/
def Spare.isFor (e : Spare) (proc : Nat) (caller : Writer) : Bool :=
  e.proc == proc && e.caller == caller

/-- `Lease::spare`: the first of the process's names for this caller that is not out, the caller's own
before any other, or else a fresh one. -/
def lendSpare (proc : Nat) (caller fresh : Writer) (lent : List Spare) : Writer × List Spare :=
  let known :=
    if lent.any (·.isFor proc caller) then lent
    else lent ++ [{ proc := proc, caller := caller, name := caller, out := false }]
  match known.find? fun e => e.isFor proc caller && !e.out with
  | some free =>
      (free.name, known.map fun e => if e = free then { e with out := true } else e)
  | none => (fresh, known ++ [{ proc := proc, caller := caller, name := fresh, out := true }])

/-- `Drop` of a spare: the name is no longer out. -/
def returnSpare (proc : Nat) (caller name : Writer) (lent : List Spare) : List Spare :=
  lent.map fun e => if e.isFor proc caller ∧ e.name = name then { e with out := false } else e

/-- A copy's stage. -/
def World.put (s : World) (c : Nat) (copy : Copy) (stage : Stage) : World :=
  { s with copies := s.copies.insert c { copy with stage := stage } }

/-- A copy takes a spare name. -/
def World.spare (s : World) (c : Nat) (copy : Copy) (fresh : Writer) : World :=
  let (name, lent) := lendSpare copy.proc copy.caller fresh s.lent
  { s with lent := lent, names := name :: s.names }.put c copy (.leased name .spare)

/-- A pen's slot goes back to the process's table. -/
def World.giveBack (s : World) (proc k : Nat) : World :=
  { s with pensOut := s.pensOut.filter (· ≠ (proc, k)) }

/-- Somebody has the lock on a file. -/
def World.locked (s : World) (file : Nat) : Bool :=
  s.copies.entries.any fun e =>
    match e.2.stage.holds with
    | some (_, .pen _ f) => f == file
    | _ => false

/-- `Lease::pen` up to its open: the slot claimed, unless it is out in this process. -/
def World.claim (s : World) (c : Nat) (copy : Copy) (fresh : Writer) : World :=
  match copy.stage with
  | .scanning k =>
      if PENS ≤ k then s.spare c copy fresh
      else if (copy.proc, k) ∈ s.pensOut then s.put c copy (.scanning (k + 1))
      else { s with pensOut := (copy.proc, k) :: s.pensOut }.put c copy (.claimed k)
  | _ => s

/-- The pen's file opened, and made if there is none. -/
def World.openPen (s : World) (c : Nat) (copy : Copy) (opens : Bool) (fresh : Writer) : World :=
  match copy.stage with
  | .claimed k =>
      if opens then
        match s.link.lookup k with
        | some file => s.put c copy (.opened k file)
        | none =>
            { s with link := s.link.insert k s.files.length, files := s.files ++ [none] }.put c copy
              (.opened k s.files.length)
      else (s.giveBack copy.proc k).spare c copy fresh
  | _ => s

/-- The lock tried, and under it the name read, or minted where there is none. -/
def World.lockPen (s : World) (c : Nat) (copy : Copy) (lock : Lock) (fresh : Writer) : World :=
  match copy.stage with
  | .opened k file =>
      match lock with
      | .blocked => (s.giveBack copy.proc k).put c copy (.scanning (k + 1))
      | .failed => (s.giveBack copy.proc k).spare c copy fresh
      | .granted written =>
          if s.locked file then (s.giveBack copy.proc k).put c copy (.scanning (k + 1))
          else
            match s.files[file]? with
            | none => s -- an open file is one that was made
            | some (some name) => s.put c copy (.leased name (.pen k file))
            | some none =>
                if written then
                  { s with files := s.files.set file (some fresh), names := fresh :: s.names }.put c
                    copy (.leased fresh (.pen k file))
                else (s.giveBack copy.proc k).spare c copy fresh
  | _ => s

/-- The slot of a pen. -/
def Hold.slot : Hold → Option Nat
  | .pen k _ => some k
  | .spare => none

/-- The directory read under the name that was lent. -/
def World.load (s : World) (c : Nat) (copy : Copy) (io : Io) (unread : BlockName → Bool) : World :=
  match copy.stage with
  | .leased name hold =>
      match Sync.load io unread s.dir name hold.slot none with
      | .error _ => s
      | .ok l => { s with dir := l.store.dir }.put c copy (.loaded name hold l)
  | _ => s

/-- `table_b64`: the whole table, flushed first. -/
def tableB64 (codec : Codec) (io : Io) (store : BlockStore) (doc : LoroDoc) :
    Except String Text × BlockStore :=
  match store.flush io doc with
  | (.error why, store) => (.error why, store)
  | (.ok _, store) => (.ok (spell store.epoch (codec.encodeOps doc.applied)), store)

section Acts

variable (codec : Codec)

/-- The operations a delta carries. -/
def carried (changes : Text) : List SyncOp := (incoming codec changes).getD []

/-- What an open copy's act makes of the copy, and the operations that leave the machine with it. -/
def act (l : Loaded) : Act → Loaded × List SyncOp
  | .edit deps body => ({ l with doc := l.doc.commit deps body }, [])
  | .flush io => ({ l with store := (l.store.flush io l.doc).2 }, [])
  | .outgoing io peer =>
      match peer.outgoing codec io l.store l.doc with
      | (.error _, store) => ({ l with store := store }, [])
      | (.ok out, store) => ({ l with store := store }, carried codec out.changes)
  | .answer first second «have» changes =>
      match answer codec first second l.store l.doc «have» changes with
      | (.error _, doc, store) => ({ l with doc := doc, store := store }, [])
      | (.ok reply, doc, store) => ({ l with doc := doc, store := store }, carried codec reply.changes)
  | .absorb io peer sent reply =>
      match peer.absorb codec io l.store l.doc sent reply with
      | (_, _, doc, store) => ({ l with doc := doc, store := store }, [])
  | .table io =>
      match tableB64 codec io l.store l.doc with
      | (.error _, store) => ({ l with store := store }, [])
      | (.ok _, store) => ({ l with store := store }, l.doc.applied)
  | .apply io spec bytes => ((StoreApply.applyChecked io l spec bytes).2, [])
  | .takeBlock io name bytes =>
      match l.store.absorb io l.doc name bytes with
      | (_, doc, store) => ({ l with doc := doc, store := store }, [])
  | .push name =>
      match l.store.dir.blocks.lookup name with
      | some (some ops) => (l, ops)
      | _ => (l, [])

/-- The names an act has at hand to retire a pen to. -/
def Act.mints : Act → List Writer
  | .answer _ second _ _ => [second.freshName]
  | .absorb io _ _ _ => [io.freshName]
  | .apply io _ _ => [io.retire.freshName, io.tookIn.freshName]
  | _ => []

/-- A pen that was given up: a new file with what its slot now says takes the slot by rename. The lock
stays on the old one. -/
def World.retire (s : World) (before after : BlockStore) : World :=
  match before.pen, after.pen with
  | some (k, _), none =>
      let name := (after.dir.pens.lookup k).join
      { s with
        link := s.link.insert k s.files.length
        files := s.files ++ [name]
        names := name.toList ++ s.names }
  | _, _ => s

/-- An open copy acts. -/
def World.act (s : World) (c : Nat) (copy : Copy) (a : Act) : World :=
  match copy.stage with
  | .loaded name hold l =>
      let here := { l with store := { l.store with dir := s.dir } }
      let (l', left) := Lease.act codec here a
      ({ s with dir := l'.store.dir, far := s.far ++ left }.retire here.store l'.store).put c copy
        (.loaded name hold l')
  | _ => s

/-- The slot or the spare name a copy gives back when it goes. -/
def World.drop (s : World) (copy : Copy) : World :=
  match copy.stage with
  | .claimed k | .opened k _ => s.giveBack copy.proc k
  | .leased name hold | .loaded name hold _ =>
      match hold with
      | .pen k _ => s.giveBack copy.proc k
      | .spare => { s with lent := returnSpare copy.proc copy.caller name s.lent }
  | .scanning _ => s

/-- What an event makes of the system. -/
def step (s : World) : Event → World
  | .take c proc caller fresh =>
      if c ∈ s.copies then s
      else
        let s := { s with callers := (proc, caller) :: s.callers, names := caller :: s.names }
        let copy : Copy := { proc := proc, caller := caller, stage := .scanning 0 }
        if s.dir.isDir then s.put c copy copy.stage else s.spare c copy fresh
  | .claim c fresh =>
      match s.copies.lookup c with
      | none => s
      | some copy => s.claim c copy fresh
  | .openPen c opens fresh =>
      match s.copies.lookup c with
      | none => s
      | some copy => s.openPen c copy opens fresh
  | .lockPen c lock fresh =>
      match s.copies.lookup c with
      | none => s
      | some copy => s.lockPen c copy lock fresh
  | .load c io unread =>
      match s.copies.lookup c with
      | none => s
      | some copy => s.load c copy io unread
  | .act c a =>
      match s.copies.lookup c with
      | none => s
      | some copy => s.act codec c copy a
  | .close c =>
      match s.copies.lookup c with
      | none => s
      | some copy => { s.drop copy with copies := s.copies.erase c }
  | .elsewhere ops => { s with far := s.far ++ ops }

end Acts

/-! ### Fresh names -/

/-- A name nobody has: it was never lent here, and nothing on disk or elsewhere was written under it. -/
def New (s : World) (w : Writer) : Prop :=
  w ∉ s.names ∧ ∀ o, s.dir.Has o ∨ o ∈ s.far → o.writer ≠ w

/-- The names an event has at hand to mint. -/
def Event.mints : Event → List Writer
  | .take _ _ _ fresh | .claim _ fresh | .openPen _ _ fresh | .lockPen _ _ fresh => [fresh]
  | .act _ a => a.mints
  | _ => []

/-- Minted names are new, and a caller's name is one its process has used before or new too. -/
def Fresh (s : World) (e : Event) : Prop :=
  (∀ w ∈ e.mints, New s w) ∧
    match e with
    | .take _ proc caller fresh => (proc, caller) ∈ s.callers ∨ (New s caller ∧ caller ≠ fresh)
    | _ => True

/-! ### A pen is given up for a fresh name -/

/-- What a call does to the pens: nothing, or the copy's own pen is given one of the fresh names and the
copy gives it up. -/
def PenMoves (mints : List Writer) (s s' : BlockStore) : Prop :=
  (s'.pen = s.pen ∧ s'.dir.pens = s.dir.pens) ∨
    ∃ k name fresh, fresh ∈ mints ∧ s.pen = some (k, name) ∧ s'.pen = none ∧
      s'.dir.pens.lookup k = some (some fresh)

theorem PenMoves.refl (mints : List Writer) (s : BlockStore) : PenMoves mints s s :=
  Or.inl ⟨rfl, rfl⟩

/-- Without a pen there is none to give up. -/
theorem PenMoves.trans {mints : List Writer} {s s' s'' : BlockStore} (h : PenMoves mints s s')
    (h' : PenMoves mints s' s'') : PenMoves mints s s'' := by
  rcases h with ⟨pen, pens⟩ | ⟨k, name, fresh, mem, held, gone, wrote⟩
  · rcases h' with ⟨pen', pens'⟩ | ⟨k, name, fresh, mem, held, gone, wrote⟩
    · exact Or.inl ⟨pen'.trans pen, pens'.trans pens⟩
    · exact Or.inr ⟨k, name, fresh, mem, pen ▸ held, gone, wrote⟩
  · rcases h' with ⟨pen', pens'⟩ | ⟨k', name', fresh', mem', held', _, _⟩
    · exact Or.inr ⟨k, name, fresh, mem, held, pen'.trans gone, pens' ▸ wrote⟩
    · rw [gone] at held'
      cases held'

variable {fresh : Writer} {s : World} {c : Nat} {copy : Copy} {codec : Codec}

theorem PenMoves.of_penStep {mints : List Writer} {s s' : BlockStore} (h : StoreApply.PenStep fresh s s')
    (mem : fresh ∈ mints) : PenMoves mints s s' := by
  rcases h.moves with same | ⟨k, name, held, gone, pens⟩
  · exact Or.inl same
  · exact Or.inr ⟨k, name, fresh, mem, held, gone, by rw [pens]; exact AList.lookup_insert _⟩

theorem PenMoves.of_stays {doc : LoroDoc} {mints : List Writer} {s s' : BlockStore}
    (h : StoreApply.Stays doc s s') : PenMoves mints s s' :=
  Or.inl ⟨h.pen, h.pens⟩

theorem keepMerged_penMoves (io : Io) (before : SyncVersion) (doc : LoroDoc) (report : MergeReport)
    (s : BlockStore) : PenMoves [io.freshName] s (s.keepMerged io before doc report).2 := by
  have recorded : PenMoves [io.freshName] s (s.recordImport report) := Or.inl ⟨rfl, rfl⟩
  have took := PenMoves.of_penStep (StoreApply.tookIn_step io before doc (s.recordImport report))
    (List.mem_singleton_self _)
  have flushed : PenMoves [io.freshName] ((s.recordImport report).tookIn io before doc).2 _ :=
    .of_stays (StoreApply.flush_stays (Prod.eta (BlockStore.flush io doc _)).symm)
  exact (recorded.trans took).trans flushed

theorem changesSinceB64_penMoves (codec : Codec) (io : Io) (store : BlockStore) (doc : LoroDoc) (theirs : Text)
    (mints : List Writer) : PenMoves mints store (changesSinceB64 codec io store doc theirs).2 := by
  rcases changesSinceB64_store codec io store doc theirs with same | flushed
  · rw [same]
    exact .refl mints store
  · rw [flushed]
    exact .of_stays (StoreApply.flush_stays (Prod.eta (store.flush io doc)).symm)

theorem applyChecked_penMoves {io : StoreApply.ApplyIo} {spec : StoreApply.ApplySpec} {bytes : Bytes}
    {l l' : Loaded} {r : Except StoreApply.ApplyError StoreApply.FlushedImport}
    (h : StoreApply.applyChecked io l spec bytes = (r, l')) :
    PenMoves [io.retire.freshName, io.tookIn.freshName] l.store l'.store := by
  have live : ∀ {l l' : Loaded}, StoreApply.SameLive l l' →
      PenMoves [io.retire.freshName, io.tookIn.freshName] l.store l'.store :=
    fun same => Or.inl ⟨same.pen, same.pens⟩
  rcases StoreApply.apply_cases h with ⟨_, same⟩ | ⟨projected, l₁, _, same, _, hcommit⟩
  · exact live same
  · obtain ⟨s₁, penned, ⟨_, rfl⟩ | ⟨ops, retired, _, _, hsettle⟩⟩ :=
      StoreApply.commit_cases hcommit
    · exact (live same).trans (.of_penStep penned (by simp))
    · obtain ⟨_, s₂, penned₂, stays, _⟩ := StoreApply.settle_cases hsettle
      have first := (live same).trans (PenMoves.of_penStep penned (.head _))
      have second : PenMoves [io.retire.freshName, io.tookIn.freshName] _ s₂ :=
        PenMoves.of_penStep penned₂ (.tail _ (List.mem_singleton_self _))
      have recorded : PenMoves [io.retire.freshName, io.tookIn.freshName] s₁
          (s₁.recordImport (l₁.doc.reportOf ops)) := Or.inl ⟨rfl, rfl⟩
      exact ((first.trans recorded).trans second).trans (.of_stays stays)

/-- Every act gives its pen up for a name it had at hand, if it gives it up. -/
theorem act_penMoves (codec : Codec) (l : Loaded) (a : Act) :
    PenMoves a.mints l.store (act codec l a).1.store := by
  cases a with
  | edit deps body => exact .refl _ _
  | flush io => exact .of_stays (StoreApply.flush_stays (Prod.eta (l.store.flush io l.doc)).symm)
  | outgoing io peer =>
      rcases outgoing_cases (Prod.eta (peer.outgoing codec io l.store l.doc)).symm with
        ⟨_, same, _⟩ | ⟨_, out, hout, _⟩
      · simp only [act]
        split <;>
          · rename_i h
            rw [h] at same
            exact Or.inl ⟨congrArg (·.pen) same, congrArg (·.dir.pens) same⟩
      · have moves := changesSinceB64_penMoves codec io l.store l.doc peer.their (Act.mints (.outgoing io peer))
        rw [hout] at moves
        simp only [act]
        split <;>
          · rename_i h
            rw [h] at moves
            exact moves
  | answer first second «have» changes =>
      have moves : PenMoves [second.freshName] l.store
          (answer codec first second l.store l.doc «have» changes).2.2 := by
        rcases answer_cases (Prod.eta (answer codec first second l.store l.doc «have» changes)).symm with
          ⟨_, _, _, _, same⟩ | ⟨vv, out, s₁, _, hout, outcome⟩
        · rw [same]
          exact .refl _ _
        · have sent := changesSinceB64_penMoves codec first l.store l.doc «have» [second.freshName]
          rw [hout] at sent
          rcases outcome with ⟨_, _, _, _, same⟩ | ⟨report, kept, _, hkeep, _⟩
          · rw [same]
            exact sent
          · have merged := keepMerged_penMoves second l.doc.version
              (answer codec first second l.store l.doc «have» changes).2.1 report s₁
            rw [hkeep] at merged
            exact sent.trans merged
      simp only [act]
      split <;>
        · rename_i h
          rw [h] at moves
          exact moves
  | absorb io peer sent reply =>
      simp only [act]
      rcases absorb_cases (Prod.eta (peer.absorb codec io l.store l.doc sent reply)).symm with
        ⟨_, _, _, _, same⟩ | ⟨vv, report, flushed, _, _, hkeep, _⟩
      · rw [same]
        exact .refl _ _
      · have merged := keepMerged_penMoves io l.doc.version
          (peer.absorb codec io l.store l.doc sent reply).2.2.1 report l.store
        rw [hkeep] at merged
        exact merged
  | table io =>
      have moves : PenMoves [] l.store (tableB64 codec io l.store l.doc).2 := by
        unfold tableB64
        split <;> exact .of_stays (StoreApply.flush_stays ‹_›)
      simp only [act]
      split <;>
        · rename_i h
          rw [h] at moves
          exact moves
  | apply io spec bytes => exact applyChecked_penMoves rfl
  | takeBlock io name bytes =>
      simp only [act]
      rcases BlockStore.absorb_cases (Prod.eta (l.store.absorb io l.doc name bytes)).symm with
        ⟨_, _, _, _, same⟩ | ⟨ops, _, _, outcome⟩
      · rw [same]
        exact .refl _ _
      · rcases outcome with ⟨_, _, books⟩ | ⟨s₁, ⟨s₂, books, rfl⟩, ⟨_, _, same⟩ | ⟨_, same⟩⟩
        · exact Or.inl ⟨books.pen, books.pens⟩
        · rw [same]
          exact Or.inl ⟨books.pen, books.pens⟩
        · rw [same]
          exact Or.inl ⟨books.pen, books.pens⟩
  | push name =>
      simp only [act]
      split <;> exact .refl _ _

/-! ### No two copies hold one name -/

section Leases

variable {files : List (Option Writer)} {lent : List Spare} {callers : List (Nat × Writer)}
  {names : List Writer} {copies : AList (fun _ : Nat => Copy)}

/-- What keeps names apart. No two files say one name, no two spares carry one, and no file says a
spare's; a caller's name is on no file and among the spares of its own process and caller only; every
name is on record. A copy that holds a pen has the lock of a file that says its name, and one that
holds a spare has it out; no two copies hold one name. -/
structure Leases (files : List (Option Writer)) (lent : List Spare) (callers : List (Nat × Writer))
    (names : List Writer) (copies : AList (fun _ : Nat => Copy)) : Prop where
  pens : ∀ {f f' : Nat} {w : Writer}, files[f]? = some (some w) → files[f']? = some (some w) → f = f'
  spares : (lent.map Spare.name).Nodup
  apart : ∀ {f : Nat} {w : Writer}, files[f]? = some (some w) → ∀ e ∈ lent, e.name ≠ w
  caller : ∀ {p w}, (p, w) ∈ callers →
    (∀ f : Nat, files[f]? ≠ some (some w)) ∧
      ∀ e ∈ lent, e.name = w → e.isFor p w = true
  penNamed : ∀ {f : Nat} {w : Writer}, files[f]? = some (some w) → w ∈ names
  callerOnce : ∀ {p p' w}, (p, w) ∈ callers → (p', w) ∈ callers → p = p'
  spareNamed : ∀ e ∈ lent, e.name ∈ names
  callerNamed : ∀ {p w}, (p, w) ∈ callers → w ∈ names
  ours : ∀ {c copy}, copies.lookup c = some copy → (copy.proc, copy.caller) ∈ callers
  reads : ∀ {c copy name k f}, copies.lookup c = some copy →
    copy.stage.holds = some (name, .pen k f) → files[f]? = some (some name)
  out : ∀ {c copy name}, copies.lookup c = some copy → copy.stage.holds = some (name, .spare) →
    ∃ e ∈ lent, e.name = name ∧ e.out = true ∧ e.isFor copy.proc copy.caller = true
  once : ∀ {c c' copy copy' name hold hold'}, copies.lookup c = some copy →
    copies.lookup c' = some copy' → copy.stage.holds = some (name, hold) →
      copy'.stage.holds = some (name, hold') → c = c'

/-- More names on record. -/
theorem Leases.record (h : Leases files lent callers names copies) {names' : List Writer}
    (more : ∀ w ∈ names, w ∈ names') : Leases files lent callers names' copies :=
  { h with
    penNamed := fun said => more _ (h.penNamed said)
    spareNamed := fun e he => more _ (h.spareNamed e he)
    callerNamed := fun hp => more _ (h.callerNamed hp) }

variable {c d : Nat} {copy copy' other : Copy} {name : Writer}

theorem lookup_insert_cases {new : Copy} (hd : (copies.insert c new).lookup d = some copy) :
    (d = c ∧ new = copy) ∨ (d ≠ c ∧ copies.lookup d = some copy) := by
  by_cases eq : d = c
  · rw [eq, AList.lookup_insert] at hd
    exact .inl ⟨eq, Option.some.inj hd⟩
  · rw [AList.lookup_insert_ne eq] at hd
    exact .inr ⟨eq, hd⟩

section

variable (h : Leases files lent callers names copies)
include h

/-- A copy in a new place: what it holds a file says or is a spare that is out, and nobody else holds it. -/
theorem Leases.put (ours : (copy'.proc, copy'.caller) ∈ callers)
    (reads : ∀ {name k f}, copy'.stage.holds = some (name, .pen k f) → files[f]? = some (some name))
    (out : ∀ {name}, copy'.stage.holds = some (name, .spare) →
      ∃ e ∈ lent, e.name = name ∧ e.out = true ∧ e.isFor copy'.proc copy'.caller = true)
    (alone : ∀ {d other name hold hold'}, d ≠ c → copies.lookup d = some other →
      other.stage.holds = some (name, hold) → copy'.stage.holds ≠ some (name, hold')) :
    Leases files lent callers names (copies.insert c copy') := by
  refine { h with ours := fun hd => ?_, reads := fun hd hheld => ?_, out := fun hd hheld => ?_, once := ?_ }
  · rcases lookup_insert_cases hd with ⟨_, rfl⟩ | ⟨_, old⟩
    · exact ours
    · exact h.ours old
  · rcases lookup_insert_cases hd with ⟨_, rfl⟩ | ⟨_, old⟩
    · exact reads hheld
    · exact h.reads old hheld
  · rcases lookup_insert_cases hd with ⟨_, rfl⟩ | ⟨_, old⟩
    · exact out hheld
    · exact h.out old hheld
  · intro d d' new new' name hold hold' hd hd' hheld hheld'
    rcases lookup_insert_cases hd with ⟨here, rfl⟩ | ⟨ne, old⟩ <;>
      rcases lookup_insert_cases hd' with ⟨here', rfl⟩ | ⟨ne', old'⟩
    · rw [here, here']
    · exact absurd hheld (alone ne' old' hheld')
    · exact absurd hheld' (alone ne old hheld)
    · exact h.once old old' hheld hheld'

/-- A copy that moves on while it holds nothing, or goes on holding what it held. -/
theorem Leases.stage (hc : copies.lookup c = some copy)
    (proc : copy'.proc = copy.proc) (caller : copy'.caller = copy.caller)
    (holds : copy'.stage.holds = none ∨ copy'.stage.holds = copy.stage.holds) :
    Leases files lent callers names (copies.insert c copy') := by
  -- whatever the copy holds now it held before
  have before : ∀ {held}, copy'.stage.holds = some held → copy.stage.holds = some held := by
    intro held now
    rcases holds with none | same
    · rw [none] at now
      cases now
    · exact same ▸ now
  refine h.put ?_ (fun now => h.reads hc (before now)) (fun now => ?_) fun ne hd hheld now =>
    ne (h.once hd hc hheld (before now))
  · rw [proc, caller]
    exact h.ours hc
  · rw [proc, caller]
    exact h.out hc (before now)

/-- A copy gone. -/
theorem Leases.erase (c : Nat) : Leases files lent callers names (copies.erase c) := by
  have before : ∀ {d copy}, (copies.erase c).lookup d = some copy → copies.lookup d = some copy := by
    intro d copy hd
    by_cases eq : d = c
    · rw [eq, AList.lookup_erase] at hd
      cases hd
    · rw [AList.lookup_erase_ne eq] at hd
      exact hd
  exact { h with
    ours := fun hd => h.ours (before hd)
    reads := fun hd => h.reads (before hd)
    out := fun hd => h.out (before hd)
    once := fun hd hd' => h.once (before hd) (before hd') }

/-- A file says a name nobody has, or nothing; every other says what it said. -/
theorem Leases.relabel {files' : List (Option Writer)} {g : Nat} {v : Option Writer}
    (fresh : ∀ w, v = some w → w ∉ names)
    (split : ∀ {f : Nat} {w : Writer}, files'[f]? = some (some w) → files[f]? = some (some w) ∨ (f = g ∧ v = some w))
    (reads : ∀ {c copy name k f}, copies.lookup c = some copy → copy.stage.holds = some (name, .pen k f) →
      files'[f]? = files[f]?) : Leases files' lent callers (v.toList ++ names) copies := by
  refine { h with
    pens := ?_
    apart := ?_
    caller := ?_
    penNamed := ?_
    spareNamed := fun e he => List.mem_append_right _ (h.spareNamed e he)
    callerNamed := fun hp => List.mem_append_right _ (h.callerNamed hp)
    reads := fun hd hheld => (reads hd hheld).trans (h.reads hd hheld) }
  · intro f f' w said said'
    rcases split said with old | ⟨here, rfl⟩ <;> rcases split said' with old' | ⟨here', same⟩
    · exact h.pens old old'
    · exact absurd (h.penNamed old) (fresh w same)
    · exact absurd (h.penNamed old') (fresh w rfl)
    · rw [here, here']
  · intro f w said e he same
    rcases split said with old | ⟨_, rfl⟩
    · exact h.apart old e he same
    · exact fresh w rfl (same ▸ h.spareNamed e he)
  · intro p w hp
    refine ⟨fun f said => ?_, (h.caller hp).2⟩
    rcases split said with old | ⟨_, rfl⟩
    · exact (h.caller hp).1 f old
    · exact fresh w rfl (h.callerNamed hp)
  · intro f w said
    rcases split said with old | ⟨_, rfl⟩
    · exact List.mem_append_right _ (h.penNamed old)
    · exact List.mem_append_left _ (by simp)

/-- A new file: it says nothing, or a name nobody has. -/
theorem Leases.file {new : Option Writer} (fresh : ∀ w, new = some w → w ∉ names) :
    Leases (files ++ [new]) lent callers (new.toList ++ names) copies := by
  refine h.relabel fresh (g := files.length) (fun {f w} said => ?_) fun hd hheld =>
    List.getElem?_append_left (List.getElem?_eq_some_iff.mp (h.reads hd hheld)).1
  rcases Nat.lt_or_ge f files.length with old | past
  · rw [List.getElem?_append_left old] at said
    exact Or.inl said
  · have last : f = files.length := by
      have bound := (List.getElem?_eq_some_iff.mp said).1
      rw [List.length_append, List.length_singleton] at bound
      omega
    rw [last, List.getElem?_concat_length] at said
    exact Or.inr ⟨last, Option.some.inj said⟩

/-- A copy that comes to hold a name nobody holds, by a file that says it or a spare that is out. -/
theorem Leases.hold {hold : Hold} (hc : copies.lookup c = some copy)
    (proc : copy'.proc = copy.proc) (caller : copy'.caller = copy.caller)
    (holds : copy'.stage.holds = some (name, hold)) (free : ∀ {d other hold'}, copies.lookup d = some other →
      other.stage.holds ≠ some (name, hold')) (backed : match hold with
      | .pen _ f => files[f]? = some (some name)
      | .spare => ∃ e ∈ lent, e.name = name ∧ e.out = true ∧
          e.isFor copy.proc copy.caller = true) : Leases files lent callers names (copies.insert c copy') := by
  refine h.put ?_ (fun now => ?_) (fun now => ?_) fun _ hd hheld now => ?_
  · rw [proc, caller]
    exact h.ours hc
  · rw [holds] at now
    cases now
    exact backed
  · rw [holds] at now
    cases now
    rw [proc, caller]
    exact backed
  · rw [holds] at now
    cases now
    exact free hd hheld

/-- The name a file says is held by nobody while nobody has the file's lock. -/
theorem Leases.free_of_unlocked {f : Nat}
    (said : files[f]? = some (some name)) (unlocked : ∀ {d other n k}, copies.lookup d = some other →
      other.stage.holds ≠ some (n, .pen k f)) {hold : Hold} (hd : copies.lookup d = some other) :
    other.stage.holds ≠ some (name, hold) := by
  intro held
  cases hold with
  | pen k f' =>
      have same := h.pens said (h.reads hd held)
      subst same
      exact unlocked hd held
  | spare =>
      obtain ⟨e, he, ename, _⟩ := h.out hd held
      exact h.apart said e he ename

/-- A fresh name minted into a file that says none, which nobody holds. -/
theorem Leases.mint {f : Nat} (unsaid : files[f]? = some none) (new : fresh ∉ names)
    (free : ∀ {d other n k'}, copies.lookup d = some other → other.stage.holds ≠ some (n, .pen k' f)) :
    Leases (files.set f (some fresh)) lent callers (fresh :: names) copies := by
  refine h.relabel (v := some fresh) (g := f) (fun w same => Option.some.inj same ▸ new) (fun {g w} said => ?_)
    fun {d other n k g} hd hheld => ?_
  · by_cases eq : g = f
    · subst eq
      rw [List.getElem?_set_self (List.getElem?_eq_some_iff.mp unsaid).1] at said
      exact Or.inr ⟨rfl, Option.some.inj said⟩
    · rw [List.getElem?_set_ne (Ne.symm eq)] at said
      exact Or.inl said
  · refine List.getElem?_set_ne fun eq => ?_
    subst eq
    exact free hd hheld

/-- Spares marked out or in, their names as they were. -/
theorem Leases.mark (mark : Spare → Spare)
    (same : ∀ e, (mark e).name = e.name ∧ ∀ p w, (mark e).isFor p w = e.isFor p w)
    (out : ∀ {c copy name}, copies.lookup c = some copy → copy.stage.holds = some (name, .spare) →
      ∀ e ∈ lent, e.name = name → e.out = true → (mark e).out = true) :
    Leases files (lent.map mark) callers names copies := by
  have mapped : (lent.map mark).map Spare.name = lent.map Spare.name := by
    rw [List.map_map]
    exact List.map_congr_left fun e _ => (same e).1
  refine { h with
    spares := by rw [mapped]; exact h.spares
    apart := ?_
    caller := ?_
    spareNamed := ?_
    out := ?_ }
  · intro f w said marked hmarked
    obtain ⟨e, he, rfl⟩ := List.mem_map.mp hmarked
    rw [(same e).1]
    exact h.apart said e he
  · intro p w hp
    refine ⟨(h.caller hp).1, fun marked hmarked hname => ?_⟩
    obtain ⟨e, he, rfl⟩ := List.mem_map.mp hmarked
    rw [(same e).1] at hname
    rw [(same e).2]
    exact (h.caller hp).2 e he hname
  · intro marked hmarked
    obtain ⟨e, he, rfl⟩ := List.mem_map.mp hmarked
    rw [(same e).1]
    exact h.spareNamed e he
  · intro c copy name hc hheld
    obtain ⟨e, he, hname, hout, hfor⟩ := h.out hc hheld
    refine ⟨mark e, List.mem_map_of_mem he, (same e).1.trans hname, out hc hheld e he hname hout, ?_⟩
    rw [(same e).2]
    exact hfor

/-- One more spare, under a name that nothing else has. -/
theorem Leases.addSpare {new : Spare}
    (unsaid : ∀ f : Nat, files[f]? ≠ some (some new.name)) (unspared : ∀ e ∈ lent, e.name ≠ new.name)
    (called : ∀ p, (p, new.name) ∈ callers → new.isFor p new.name = true) :
    Leases files (lent ++ [new]) callers (new.name :: names) copies := by
  have split : ∀ {e}, e ∈ lent ++ [new] → e ∈ lent ∨ e = new := by
    intro e he
    rcases List.mem_append.mp he with old | last
    · exact Or.inl old
    · exact Or.inr (List.mem_singleton.mp last)
  refine { h with
    spares := ?_
    apart := ?_
    caller := ?_
    penNamed := fun said => .tail _ (h.penNamed said)
    spareNamed := ?_
    callerNamed := fun hp => .tail _ (h.callerNamed hp)
    out := ?_ }
  · rw [List.map_append, List.nodup_append]
    refine ⟨h.spares, List.nodup_singleton _, fun n hn m hm => ?_⟩
    obtain ⟨e, he, rfl⟩ := List.mem_map.mp hn
    rw [List.mem_singleton.mp hm]
    exact unspared e he
  · intro f w said e he
    rcases split he with old | rfl
    · exact h.apart said e old
    · rintro rfl
      exact unsaid f said
  · intro p w hp
    refine ⟨(h.caller hp).1, fun e he hname => ?_⟩
    rcases split he with old | rfl
    · exact (h.caller hp).2 e old hname
    · subst hname
      exact called p hp
  · intro e he
    rcases split he with old | rfl
    · exact .tail _ (h.spareNamed e old)
    · exact .head _
  · intro c copy name hc hheld
    obtain ⟨e, he, rest⟩ := h.out hc hheld
    exact ⟨e, List.mem_append_left _ he, rest⟩

/-- Nobody holds a name that is on no record. -/
theorem Leases.free_of_new {w : Writer} (new : w ∉ names) {hold : Hold}
    (hd : copies.lookup d = some other) : other.stage.holds ≠ some (w, hold) := by
  intro held
  cases hold with
  | pen k f => exact new (h.penNamed (h.reads hd held))
  | spare =>
      obtain ⟨e, he, rfl, _⟩ := h.out hd held
      exact new (h.spareNamed e he)

/-- Nobody holds a spare that is not out. -/
theorem Leases.free_of_in {e : Spare} (he : e ∈ lent) (isIn : e.out = false) {hold : Hold}
    (hd : copies.lookup d = some other) : other.stage.holds ≠ some (e.name, hold) := by
  intro held
  cases hold with
  | pen k f => exact h.apart (h.reads hd held) e he rfl
  | spare =>
      obtain ⟨e', he', ename, isOut, _⟩ := h.out hd held
      have same := List.inj_on_of_nodup_map h.spares he' he ename
      rw [same, isIn] at isOut
      cases isOut

/-- A spare is lent: the caller's own name, one that has come back, or a fresh one. -/
theorem Leases.lendSpare {lent' : List Spare} (hc : copies.lookup c = some copy) (new : fresh ∉ names)
    (hlend : lendSpare copy.proc copy.caller fresh lent = (name, lent')) (proc : copy'.proc = copy.proc)
    (caller : copy'.caller = copy.caller) (holds : copy'.stage.holds = some (name, .spare)) :
    Leases files lent' callers (name :: names) (copies.insert c copy') := by
  have ours := h.ours hc
  unfold Lease.lendSpare at hlend
  -- the process's names for this caller, with the caller's own among them
  obtain ⟨known, hknown, leases⟩ : ∃ known, known =
      (if lent.any (·.isFor copy.proc copy.caller) then lent
        else lent ++ [{ proc := copy.proc, caller := copy.caller, name := copy.caller, out := false }]) ∧
      Leases files known callers names copies := by
    refine ⟨_, rfl, ?_⟩
    split
    · exact h
    · rename_i none
      refine (h.addSpare (h.caller ours).1 (fun e he same => none ?_) fun p hp => ?_).record ?_
      · exact List.any_eq_true.mpr ⟨e, he, (h.caller ours).2 e he same⟩
      · simp [Spare.isFor, h.callerOnce ours hp]
      · intro w hw
        rcases List.mem_cons.mp hw with rfl | old
        · exact h.callerNamed ours
        · exact old
  rw [← hknown] at hlend
  dsimp only at hlend
  split at hlend
  · rename_i free hfind
    cases hlend
    have mem := List.mem_of_find?_eq_some hfind
    have is : free.isFor copy.proc copy.caller = true ∧ free.out = false := by
      simpa using List.find?_some hfind
    have marked := leases.mark (fun e => if e = free then { e with out := true } else e)
      (fun e => by split <;> exact ⟨rfl, fun _ _ => rfl⟩)
      (fun _ _ e _ _ isOut => by split <;> first | rfl | exact isOut)
    refine (marked.hold hc proc caller holds (leases.free_of_in mem is.2) ?_).record
      fun w hw => .tail _ hw
    exact ⟨{ free with out := true }, List.mem_map.mpr ⟨free, mem, if_pos rfl⟩, rfl, rfl, is.1⟩
  · cases hlend
    have added : Leases files (known ++ [⟨copy.proc, copy.caller, fresh, true⟩]) callers
        (fresh :: names) copies :=
      leases.addSpare (fun f said => new (leases.penNamed said))
        (fun e he (same : e.name = fresh) => new (same ▸ leases.spareNamed e he))
        (fun p hp => absurd (leases.callerNamed hp) new)
    refine added.hold hc proc caller holds (leases.free_of_new new) ?_
    exact ⟨_, List.mem_append_right _ (List.mem_singleton_self _), rfl, rfl, by simp [Spare.isFor]⟩

end

end Leases

/-! ### The names of a world -/

/-- The invariant of the system. -/
def World.Leased (s : World) : Prop := Leases s.files s.lent s.callers s.names s.copies

section

variable (h : s.Leased) (hc : s.copies.lookup c = some copy)
include h hc

theorem World.Leased.spare (new : fresh ∉ s.names) : (s.spare c copy fresh).Leased :=
  Leases.lendSpare h hc new rfl rfl rfl rfl

theorem World.Leased.put {stage : Stage}
    (holds : stage.holds = none ∨ stage.holds = copy.stage.holds) : (s.put c copy stage).Leased :=
  Leases.stage h hc rfl rfl holds

theorem World.Leased.claim (new : fresh ∉ s.names) : (s.claim c copy fresh).Leased := by
  unfold World.claim
  split
  · split
    · exact h.spare hc new
    · split
      · exact h.put hc (Or.inl rfl)
      · exact Leases.stage h hc rfl rfl (Or.inl rfl)
  · exact h

theorem World.Leased.openPen {opens : Bool}
    (new : fresh ∉ s.names) : (s.openPen c copy opens fresh).Leased := by
  unfold World.openPen
  split
  · split
    · split
      · exact h.put hc (Or.inl rfl)
      · have filed : Leases (s.files ++ [none]) s.lent s.callers s.names s.copies :=
          Leases.file h fun w said => nomatch said
        exact Leases.stage filed hc rfl rfl (Or.inl rfl)
    · exact World.Leased.spare (s := s.giveBack copy.proc _) h hc new
  · exact h

end

/-- Nobody has the lock of a file that is not locked. -/
theorem World.unlocked {f : Nat} (h : ¬ s.locked f = true) {d : Nat} {other : Copy} {n : Writer} {k : Nat}
    (hd : s.copies.lookup d = some other) : other.stage.holds ≠ some (n, .pen k f) := by
  intro held
  refine h (List.any_eq_true.mpr ⟨⟨d, other⟩, AList.mem_lookup_iff.mp hd, ?_⟩)
  simp [held]

theorem World.Leased.lockPen (h : s.Leased) {lock : Lock} (hc : s.copies.lookup c = some copy) (new : fresh ∉ s.names) :
    (s.lockPen c copy lock fresh).Leased := by
  unfold World.lockPen
  split
  · rename_i k file hstage
    have spared : ((s.giveBack copy.proc k).spare c copy fresh).Leased :=
      World.Leased.spare (s := s.giveBack copy.proc k) h hc new
    have passed : ((s.giveBack copy.proc k).put c copy (.scanning (k + 1))).Leased :=
      World.Leased.put (s := s.giveBack copy.proc k) h hc (Or.inl rfl)
    cases lock with
    | blocked => exact passed
    | failed => exact spared
    | granted written =>
        dsimp only
        split
        · exact passed
        · rename_i free
          split
          · exact h
          · rename_i name said
            exact Leases.hold h hc rfl rfl rfl
              (Leases.free_of_unlocked h said (World.unlocked free)) said
          · rename_i unsaid
            split
            · -- under the lock nobody else can have read the file, and the name is new
              have minted := Leases.mint h unsaid new (World.unlocked free)
              refine Leases.hold minted hc rfl rfl rfl (Leases.free_of_new h new) ?_
              exact List.getElem?_set_self (List.getElem?_eq_some_iff.mp unsaid).1
            · exact spared
  · exact h

theorem World.Leased.load {s : World} (h : s.Leased) {c : Nat} {copy : Copy} {io : Io}
    {unread : BlockName → Bool} (hc : s.copies.lookup c = some copy) : (s.load c copy io unread).Leased := by
  unfold World.load
  split
  · rename_i name hold hstage
    split
    · exact h
    · exact Leases.stage h hc rfl rfl (Or.inr (by rw [hstage]; rfl))
  · exact h

/-- What a pen that is given up says now is a name the act had at hand. -/
theorem retired_name {mints : List Writer} {before after : BlockStore} (moves : PenMoves mints before after)
    {k : Nat} {old w : Writer} (held : before.pen = some (k, old)) (gone : after.pen = none)
    (hsaid : (after.dir.pens.lookup k).join = some w) : w ∈ mints := by
  rcases moves with ⟨pen, _⟩ | ⟨k', name, fresh, mem, held', _, wrote⟩
  · rw [gone, held] at pen
    cases pen
  · rw [held] at held'
    cases held'
    rw [wrote] at hsaid
    cases hsaid
    exact mem

/-- An act keeps the names apart: a pen that is given up says a new name. -/
theorem World.Leased.act (h : s.Leased) {a : Act} (hc : s.copies.lookup c = some copy)
    (new : ∀ w ∈ a.mints, w ∉ s.names) : (s.act codec c copy a).Leased := by
  unfold World.act
  split
  · rename_i name hold l hstage
    have moves := act_penMoves codec { l with store := { l.store with dir := s.dir } } a
    have still : ∀ l', (Stage.loaded name hold l').holds = copy.stage.holds := by
      intro l'
      rw [hstage]
      rfl
    dsimp only
    unfold World.retire
    split
    · rename_i k old held gone
      exact Leases.stage (Leases.file h fun w hw => new w (retired_name moves held gone hw)) hc rfl rfl
        (Or.inr (still _))
    · exact Leases.stage h hc rfl rfl (Or.inr (still _))
  · exact h

/-- A copy that goes gives its name back, and holds none any more. -/
theorem World.Leased.drop (h : s.Leased) (hc : s.copies.lookup c = some copy) :
    World.Leased { s.drop copy with copies := s.copies.erase c } := by
  have gone := Leases.erase h c
  have held : ∀ {name hold}, copy.stage.holds = some (name, hold) →
      World.Leased
        { (match hold with
            | .pen k _ => s.giveBack copy.proc k
            | .spare => { s with lent := returnSpare copy.proc copy.caller name s.lent } : World) with
          copies := s.copies.erase c } := by
    intro name hold hheld
    cases hold with
    | pen k f => exact gone
    | spare =>
        refine Leases.mark gone _ (fun e => by split <;> exact ⟨rfl, fun _ _ => rfl⟩) ?_
        intro d other name' hd hheld' e _ ename isOut
        split
        · -- only the copy that goes has this spare out
          rename_i is
          have ne : d ≠ c := by
            rintro rfl
            rw [AList.lookup_erase] at hd
            cases hd
          rw [AList.lookup_erase_ne ne] at hd
          rw [← ename, is.2] at hheld'
          exact absurd (Leases.once h hd hc hheld' hheld) ne
        · exact isOut
  unfold World.drop
  split
  · exact gone
  · exact gone
  · rename_i name hold hstage
    exact held (by rw [hstage]; rfl)
  · rename_i name hold l hstage
    exact held (by rw [hstage]; rfl)
  · exact gone

/-- A copy whose open begins holds nothing; its caller's name is one its process has used before, or new. -/
theorem Leases.take {files : List (Option Writer)} {lent : List Spare} {callers : List (Nat × Writer)}
    {names : List Writer} {copies : AList (fun _ : Nat => Copy)} (h : Leases files lent callers names copies)
    {c proc : Nat} {caller : Writer} (known : (proc, caller) ∈ callers ∨ caller ∉ names) :
    Leases files lent ((proc, caller) :: callers) (caller :: names)
      (copies.insert c { proc := proc, caller := caller, stage := .scanning 0 }) := by
  have called : Leases files lent ((proc, caller) :: callers) (caller :: names) copies := by
    refine { h with
      caller := ?_
      penNamed := fun said => .tail _ (h.penNamed said)
      callerOnce := ?_
      spareNamed := fun e he => .tail _ (h.spareNamed e he)
      callerNamed := ?_
      ours := fun hd => .tail _ (h.ours hd) }
    · intro p w hp
      rcases List.mem_cons.mp hp with same | old
      · cases same
        rcases known with old | new
        · exact h.caller old
        · exact ⟨fun f said => new (h.penNamed said), fun e he same => absurd (same ▸ h.spareNamed e he) new⟩
      · exact h.caller old
    · intro p p' w hp hp'
      rcases List.mem_cons.mp hp with same | old <;> rcases List.mem_cons.mp hp' with same' | old'
      · cases same
        cases same'
        rfl
      · cases same
        rcases known with old | new
        · exact h.callerOnce old old'
        · exact absurd (h.callerNamed old') new
      · cases same'
        rcases known with known | new
        · exact h.callerOnce old known
        · exact absurd (h.callerNamed old) new
      · exact h.callerOnce old old'
    · intro p w hp
      rcases List.mem_cons.mp hp with same | old
      · cases same
        exact .head _
      · exact .tail _ (h.callerNamed old)
  exact called.put (.head _) (by rintro _ _ _ ⟨⟩) (by rintro _ ⟨⟩) (by rintro _ _ _ _ _ _ _ _ ⟨⟩)

/-- Every step that mints new names only keeps the names apart. -/
theorem leases_step {e : Event} (fresh : Fresh s e) (h : s.Leased) : (step codec s e).Leased := by
  have new : ∀ w ∈ e.mints, w ∉ s.names := fun w hw => (fresh.1 w hw).1
  cases e with
  | take c proc caller name =>
      simp only [step]
      split
      · exact h
      · have known : (proc, caller) ∈ s.callers ∨ caller ∉ s.names := fresh.2.imp_right (·.1.1)
        have taken : World.Leased
            { s with
              callers := (proc, caller) :: s.callers
              names := caller :: s.names
              copies := s.copies.insert c ⟨proc, caller, .scanning 0⟩ } := Leases.take h known
        split
        · exact taken
        · have unused : name ∉ caller :: s.names := by
            intro mem
            rcases List.mem_cons.mp mem with rfl | old
            · rcases fresh.2 with used | ⟨_, other⟩
              · exact new _ (.head _) (Leases.callerNamed h used)
              · exact other rfl
            · exact new name (.head _) old
          have spared := World.Leased.spare taken (AList.lookup_insert _) unused
          simp only [World.spare, World.put, AList.insert_insert] at spared
          exact spared
  | claim c name =>
      simp only [step]
      split
      · exact h
      · exact h.claim ‹_› (new name (.head _))
  | openPen c opens name =>
      simp only [step]
      split
      · exact h
      · exact h.openPen ‹_› (new name (.head _))
  | lockPen c lock name =>
      simp only [step]
      split
      · exact h
      · exact h.lockPen ‹_› (new name (.head _))
  | load c io unread =>
      simp only [step]
      split
      · exact h
      · exact h.load ‹_›
  | act c a =>
      simp only [step]
      split
      · exact h
      · exact h.act ‹_› new
  | close c =>
      simp only [step]
      split
      · exact h
      · exact h.drop ‹_›
  | elsewhere ops => exact h

/-- Along every run that mints new names only, names are kept apart. -/
theorem leases_run {s' : World} (run : Runs (step codec) Fresh s s') (h : s.Leased) : s'.Leased :=
  run.invariant leases_step h

/-- Nobody has the directory open, nor has had since the record of names began; its pen files say a name each. -/
structure World.Unopened (s : World) : Prop where
  copies : s.copies = ∅
  lent : s.lent = []
  callers : s.callers = []
  pens : ∀ {f f' : Nat} {w : Writer}, s.files[f]? = some (some w) → s.files[f']? = some (some w) → f = f'
  named : ∀ {f : Nat} {w : Writer}, s.files[f]? = some (some w) → w ∈ s.names

theorem World.Unopened.leased (h : s.Unopened) : s.Leased := by
  unfold World.Leased
  rw [h.copies, h.lent, h.callers]
  exact ⟨h.pens, List.nodup_nil, by simp, by simp, h.named, by simp, by simp, by simp, by simp, by simp, by simp, by simp⟩

/-- **No name is out twice.** Whatever copies of whatever processes are opened, edited, written, closed and killed, in whatever
order, two that are open at one time hold different names, be they of pens or spares, and a pen's file says the name. -/
theorem names_lent_apart {codec : Codec} {s s' : World} (begins : s.Unopened) (run : Runs (step codec) Fresh s s')
    {c : Nat} {copy : Copy} {name : Writer} {hold : Hold} (there : s'.copies.lookup c = some copy)
    (held : copy.stage.holds = some (name, hold)) :
    (∀ c' copy' name' hold', c' ≠ c → s'.copies.lookup c' = some copy' → copy'.stage.holds = some (name', hold') →
      name' ≠ name) ∧ ∀ k f, hold = .pen k f → s'.files[f]? = some (some name) := by
  have leased := leases_run run begins.leased
  refine ⟨fun c' copy' name' hold' ne there' held' same => ?_, fun k f pen => ?_⟩
  · subst same
    exact ne (Leases.once leased there' there held' held)
  · subst pen
    exact Leases.reads leased there held

/-- Two processes open one directory; the second finds the first pen locked and goes on to the next. -/
def twoOpens : List Event :=
  [.take 0 10 100 900, .claim 0 901, .openPen 0 true 902, .lockPen 0 (.granted true) 1,
   .take 1 11 101 903, .claim 1 904, .openPen 1 true 905, .lockPen 1 (.granted true) 906,
   .claim 1 907, .openPen 1 true 908, .lockPen 1 (.granted true) 2]

def unopened : World := ⟨{ Dir.fresh [] with isDir := true }, ∅, [], [], [], ∅, [], [], []⟩

theorem twoOpens_fit : Fits (step plainCodec) Fresh unopened twoOpens := by
  have new : ∀ s : World, s.dir.blocks = ∅ → s.far = [] → ∀ {w : Writer}, w ∉ s.names → New s w :=
    fun s blocks far w unused => ⟨unused, fun o wrote => by simp [Dir.Has, blocks, far] at wrote⟩
  refine ⟨⟨?_, .inr ⟨?_, ?_⟩⟩, ⟨?_, ?_⟩, ⟨?_, ?_⟩, ⟨?_, ?_⟩, ⟨?_, .inr ⟨?_, ?_⟩⟩, ⟨?_, ?_⟩, ⟨?_, ?_⟩, ⟨?_, ?_⟩, ⟨?_, ?_⟩,
    ⟨?_, ?_⟩, ⟨?_, ?_⟩, trivial⟩
  all_goals first
    | exact List.forall_mem_singleton.mpr (new _ rfl rfl (by decide))
    | exact new _ rfl rfl (by decide)
    | trivial

theorem two_opens_apart : (2 : Writer) ≠ 1 ∧ (twoOpens.foldl (step plainCodec) unopened).files[0]? = some (some 1) := by
  have apart := names_lent_apart (s := unopened) (c := 0) ⟨rfl, rfl, rfl, by simp [unopened], by simp [unopened]⟩
    twoOpens_fit.runs rfl rfl
  exact ⟨apart.1 1 _ 2 _ (by decide) rfl rfl, apart.2 0 0 rfl⟩

end Khor.Sync.Lease
