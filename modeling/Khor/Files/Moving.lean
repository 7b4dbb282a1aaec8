/-
Module: Khor.Files.Moving
Purpose: The move of conversation files into the receive directory: the scan of the folders, the word of a receipt,
  the landing, the receipt and the link left behind, with kills between any two steps and runs again.
Trusted boundary: the file system and blake3; the folders, the receive directory and the receipts are apart
Main exports: World, receipt, landed, Job, World.step
-/
import Khor.Files.Landing

namespace Khor.Moving

open Landing (candidate partOf)

abbrev Bytes := List UInt8

/-- A path in a conversation folder. `utf8` is for a leaf that is text. -/
structure Old where
  channel : String
  leaf : String
  utf8 : Bool
deriving DecidableEq

/-- A path in a conversation folder, in the receive directory, or somewhere else. -/
inductive Spot where
  | old (o : Old)
  | inbox (name : String)
  | elsewhere (path : String)

inductive Entry where
  | file (bytes : Bytes)
  | link (target : Spot)
  | other

structure Receipt where
  digest : String
  name : String
  path : Spot
  size : Nat
  sender : String
  atMs : Int

/-- A file that is worked on, and what is left of the scan. -/
structure Job where
  rest : List Old
  stuck : Bool
  moved : Nat
  o : Old
  body : Bytes
  atMs : Int

/-- Where a run is: not in one, between two files, with a file read, with the receipt of a file that is here already,
before the landing, with the landing, past the rename that failed, with the part copied, with the part in place, with
the old file gone, with the part cleared away, past the receipt, and with a failure. -/
inductive Phase where
  | idle
  | scanning (rest : List Old) (stuck : Bool) (moved : Nat)
  | taken (j : Job)
  | dropping (j : Job) (path : Spot)
  | reserving (j : Job)
  | reserved (j : Job) (dest : String)
  | copying (j : Job) (dest : String)
  | copied (j : Job) (dest : String)
  | placed (j : Job) (dest : String)
  | settled (j : Job) (dest : String)
  | recording (j : Job) (dest : String)
  | linking (j : Job) (path : Spot)
  | failing (j : Job) (dest : String)

structure World where
  olds : Old → Option Entry
  inbox : String → Option Entry
  elsewhere : String → Option Entry
  receipts : String → Option Receipt
  mark : Bool
  phase : Phase

def set {ι α : Type} [DecidableEq ι] (f : ι → α) (i : ι) (a : α) : ι → α := fun k => if k = i then a else f k

@[simp, grind =] theorem set_apply {ι α : Type} [DecidableEq ι] (f : ι → α) (i : ι) (a : α) (k : ι) :
    set f i a k = if k = i then a else f k := rfl

def World.entry (w : World) : Spot → Option Entry
  | .old o => w.olds o
  | .inbox name => w.inbox name
  | .elsewhere path => w.elsewhere path

/-- What opening a path reads, after at most so many links. -/
def World.reads (w : World) : Nat → Spot → Option Bytes
  | 0, _ => none
  | fuel + 1, p =>
      match w.entry p with
      | some (.file bytes) => some bytes
      | some (.link target) => World.reads w fuel target
      | _ => none

def LINKS : Nat := 40

/-- The receipt of a digest, if its file is there with its size. -/
def receipt (w : World) (digest : String) : Option Receipt :=
  (w.receipts digest).filter fun r => (w.reads LINKS r.path).any fun bytes => bytes.length == r.size

/-- Where a file of a conversation is: where its receipt says, else where it was. -/
def landed (w : World) (digest : String) (o : Old) : Option Spot :=
  match receipt w digest with
  | some r => some r.path
  | none =>
      match w.olds o with
      | some (.file _) => some (.old o)
      | _ => none

/-- The name without the first digits of the digest. -/
def plainName (digest leaf : String) : String :=
  match leaf.toList.span (· ≠ '-') with
  | (d8, _ :: rest@(_ :: _)) => if d8.isPrefixOf digest.toList then String.ofList rest else leaf
  | _ => leaf

/-- The first name that is free and whose part is free. -/
def firstFree (inbox : String → Option Entry) (name : String) : Nat → Nat → Option String
  | 0, _ => none
  | fuel + 1, n =>
      if (inbox (candidate name n)).isSome || (inbox (partOf (candidate name n))).isSome then
        firstFree inbox name fuel (n + 1)
      else some (candidate name n)

/-- Neither a partial nor a marker, and text. -/
def Old.visible (o : Old) : Bool := o.utf8 && o.leaf.toList.head? != some '.'

/-- `fault` says whether the system fails the step. -/
inductive Event where
  | run (todo : List Old)
  | take (fault : Bool) (atMs : Int)
  | check
  | drop (fault : Bool)
  | reserve (fault : Bool)
  | rename (fault : Bool)
  | copy (fault : Option Nat)
  | place (fault : Bool)
  | unlink (fault : Bool)
  | clear (fault : Bool)
  | record (fault : Bool)
  | link (fault : Bool)
  | finish (fault : Bool)
  | kill

section Moving

variable (hash : Bytes → String)

/-- The next of the listed entries: a regular file is read, all else is passed over. -/
def World.take (w : World) (fault : Bool) (atMs : Int) : World :=
  match w.phase with
  | .scanning (o :: rest) stuck moved =>
      match w.olds o with
      | some (.file body) =>
          if o.visible then
            if fault then { w with phase := .scanning rest true moved }
            else { w with phase := .taken ⟨rest, stuck, moved, o, body, atMs⟩ }
          else { w with phase := .scanning rest stuck moved }
      | _ => { w with phase := .scanning rest stuck moved }
  | _ => w

def World.check (w : World) : World :=
  match w.phase with
  | .taken j =>
      match receipt w (hash j.body) with
      | some r => { w with phase := .dropping j r.path }
      | none => { w with phase := .reserving j }
  | _ => w

def Job.stops (j : Job) : Phase := .scanning j.rest true j.moved

def World.drop (w : World) (fault : Bool) : World :=
  match w.phase with
  | .dropping j path =>
      if fault then { w with phase := j.stops }
      else { w with phase := .linking j path, olds := set w.olds j.o none }
  | _ => w

def World.reserve (w : World) (fault : Bool) : World :=
  match w.phase with
  | .reserving j =>
      if fault then { w with phase := j.stops }
      else
        match firstFree w.inbox (plainName (hash j.body) j.o.leaf) 9999 1 with
        | some dest => { w with phase := .reserved j dest, inbox := set w.inbox (partOf dest) (some (.file [])) }
        | none => { w with phase := j.stops }
  | _ => w

/-- The file is renamed, where both are on one disk. -/
def World.rename (w : World) (fault : Bool) : World :=
  match w.phase with
  | .reserved j dest =>
      if fault then { w with phase := .copying j dest }
      else
        { w with
          phase := .settled j dest
          inbox := set w.inbox dest (some (.file j.body))
          olds := set w.olds j.o none }
  | _ => w

/-- A copy that fails leaves the bytes before it. -/
def World.copy (w : World) (fault : Option Nat) : World :=
  match w.phase with
  | .copying j dest =>
      match fault with
      | some k =>
          { w with phase := .failing j dest, inbox := set w.inbox (partOf dest) (some (.file (j.body.take k))) }
      | none => { w with phase := .copied j dest, inbox := set w.inbox (partOf dest) (some (.file j.body)) }
  | _ => w

def World.place (w : World) (fault : Bool) : World :=
  match w.phase with
  | .copied j dest =>
      if fault then { w with phase := .failing j dest }
      else
        { w with
          phase := .placed j dest
          inbox := set (set w.inbox dest (w.inbox (partOf dest))) (partOf dest) none }
  | _ => w

def World.unlink (w : World) (fault : Bool) : World :=
  match w.phase with
  | .placed j dest =>
      if fault then { w with phase := .failing j dest }
      else { w with phase := .settled j dest, olds := set w.olds j.o none }
  | _ => w

/-- The part goes either way. -/
def World.clear (w : World) (fault : Bool) : World :=
  let inbox (dest : String) := if fault then w.inbox else set w.inbox (partOf dest) none
  match w.phase with
  | .settled j dest => { w with phase := .recording j dest, inbox := inbox dest }
  | .failing j dest => { w with phase := j.stops, inbox := inbox dest }
  | _ => w

def World.record (w : World) (fault : Bool) : World :=
  match w.phase with
  | .recording j dest =>
      if fault then { w with phase := j.stops }
      else
        { w with
          phase := .linking j (.inbox dest)
          receipts := set w.receipts (hash j.body)
            (some ⟨hash j.body, plainName (hash j.body) j.o.leaf, .inbox dest, j.body.length, "", j.atMs⟩) }
  | _ => w

def World.link (w : World) (fault : Bool) : World :=
  match w.phase with
  | .linking j path =>
      { w with
        phase := .scanning j.rest j.stuck (j.moved + 1)
        olds := if fault then w.olds else set w.olds j.o (some (.link path)) }
  | _ => w

/-- The mark is written when nothing is stuck; a failure of that is passed over. -/
def World.finish (w : World) (fault : Bool) : World :=
  match w.phase with
  | .scanning [] stuck _ => { w with phase := .idle, mark := w.mark || (!stuck && !fault) }
  | _ => w

def World.step (w : World) : Event → World
  | .run todo =>
      match w.phase with
      | .idle => if w.mark then w else { w with phase := .scanning todo false 0 }
      | _ => w
  | .take fault atMs => w.take fault atMs
  | .check => w.check hash
  | .drop fault => w.drop fault
  | .reserve fault => w.reserve hash fault
  | .rename fault => w.rename fault
  | .copy fault => w.copy fault
  | .place fault => w.place fault
  | .unlink fault => w.unlink fault
  | .clear fault => w.clear fault
  | .record fault => w.record hash fault
  | .link fault => w.link fault
  | .finish fault => w.finish fault
  | .kill => { w with phase := .idle }

/-! ### What the move is for -/

/-- No bytes are lost, and once the mark is written every file is found by its digest. -/
structure Moved (w₀ w : World) : Prop where
  kept : ∀ o bytes, w₀.olds o = some (.file bytes) →
    w.olds o = some (.file bytes) ∨ ∃ name, w.inbox name = some (.file bytes)
  found : w₀.mark = false → w.mark = true → ∀ o bytes, w₀.olds o = some (.file bytes) → o.visible = true →
    ∃ r, receipt w (hash bytes) = some r ∧ w.reads LINKS r.path = some bytes ∧
      landed w (hash bytes) o = some r.path

/-! ### The condition -/

/-- The old file is gone and the receipt is not there. -/
def Phase.between : Phase → Prop
  | .settled .. | .recording .. => True
  | _ => False

/-- The listing has every file. A receipt that is taken at its word names a file of the receive directory with the
bytes. Between the end of the old file and its receipt nothing fails and no kill comes. -/
def World.Meets (w : World) : Event → Prop
  | .run todo => ∀ o bytes, w.olds o = some (.file bytes) → o.visible = true → o ∈ todo
  | .check => ∀ j r, w.phase = .taken j → receipt w (hash j.body) = some r →
      ∃ name, r.path = .inbox name ∧ w.inbox name = some (.file j.body)
  | .record fault => fault = false
  | .kill => ¬ w.phase.between
  | _ => True

end Moving

end Khor.Moving
