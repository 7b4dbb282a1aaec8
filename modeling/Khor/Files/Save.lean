/-
Module: Khor.Files.Save
Purpose: Saves of whole files by any number of calls of one process: the hold on the spelled path, the check against
  what the writer last read, the temporary beside the file and the rename over it.
Trusted boundary: `open`, `read`, `write` and `rename` as the disk has them; the directories and the links to
  directories stay
Main exports: Host, Call, Refusal, World.step, World.Meets
-/
import Khor.Lib.Disk
import Khor.Lib.Numerals
import Khor.Lib.Runs

namespace Khor.Files

abbrev Bytes := List UInt8

/-! ### Paths -/

def isAbsolute (path : String) : Bool := path.toList.head? == some '/'

/-- What paths are compared by: empty parts and `.` do not count. -/
def components (path : String) : List String :=
  ((path.toList.splitOn '/').map String.ofList).filter fun part => part != "" && part != "."

def parent : List String → Option (List String)
  | [] => none
  | path => some path.dropLast

def fileName (path : List String) : Option String :=
  path.getLast?.filter (· != "..")

/-- A name in a directory. -/
abbrev Place := Nat × String

/-- `real` is the directory that a path leads to, `fresh` what a new file gets besides its contents. -/
structure Host (Attr : Type) where
  real : List String → Option Nat
  fresh : Attr
  digest : Bytes → String

abbrev Tree (Attr : Type) := Disk Place (List String) Attr

section Saves

variable {Attr : Type} (h : Host Attr)

/-- The name that a path ends in, whatever stands under it. -/
def Host.own (path : List String) : Option Place :=
  match (parent path).bind h.real, fileName path with
  | some dir, some name => some (dir, name)
  | _, _ => none

/-- What opening a path finds: a file, a free name, no directory for the name, or nothing to open. -/
inductive Look where
  | file (ino : Nat)
  | free (p : Place)
  | missing
  | other

/-- Links are followed. -/
def Host.look (d : Tree Attr) : Nat → List String → Look
  | 0, _ => .other
  | fuel + 1, path =>
      match h.own path with
      | none => if (h.real path).isSome then .other else .missing
      | some p =>
          match d.names p with
          | some (.link target) => Host.look d fuel target
          | some (.file ino) => .file ino
          | some .dir => .other
          | none => .free p

/-- The most links that are followed. -/
def LINKS : Nat := 40

/-! ### Calls -/

structure Call where
  path : String
  bytes : Bytes
  was : String

/-- `e` is the text of a failure of the system. -/
inductive Refusal where
  | pathNotAbsolute
  | tooBigToWrite
  | fileChangedUnderYou
  | cantListDir (e : String)
  | notAFilePath
  | cantSaveFile (e : String)

def WRITE_CAP : Nat := 64 * 1024 * 1024

/-- Where a call is: before the hold, with it, past the check, with the number of its temporary, with the temporary
open, with it written, and with its outcome while it still has the hold. -/
inductive Phase where
  | waiting (c : Call)
  | holding (c : Call)
  | checked (c : Call)
  | numbered (c : Call) (n : Nat)
  | opened (c : Call) (n : Nat) (ino : Nat)
  | written (c : Call) (n : Nat) (ino : Nat)
  | landed (c : Call)
  | refused (c : Call) (r : Refusal)
  | returned (c : Call) (answer : Except Refusal (Nat × String))
  | killed (c : Call)

/-- The call has the hold. -/
def Phase.holds : Phase → Option Call
  | .holding c | .checked c | .numbered c _ | .opened c _ _ | .written c _ _ | .landed c | .refused c _ => some c
  | _ => none

/-- The call is between its check and its rename. -/
def Phase.passed : Phase → Option Call
  | .checked c | .numbered c _ | .opened c _ _ | .written c _ _ => some c
  | _ => none

def Phase.number : Phase → Option (Call × Nat)
  | .numbered c n | .opened c n _ | .written c n _ => some (c, n)
  | _ => none

/-- The temporary is there. -/
def Phase.draft : Phase → Option (Call × Nat × Nat)
  | .opened c n ino | .written c n ino => some (c, n, ino)
  | _ => none

/-- A save that took place. -/
structure Landing where
  call : Nat
  place : Place
  c : Call

/-- `held` is the table of spelled paths, `counter` numbers the temporaries. `drafts` are the temporaries that are
there and `log` is what took place so far. -/
structure World (Attr : Type) where
  disk : Tree Attr
  pid : Nat
  counter : Nat
  held : List String → Bool
  calls : Nat → Option Phase
  drafts : List Place
  log : List Landing

def World.at (w : World Attr) (i : Nat) (phase : Phase) : World Attr :=
  { w with calls := fun k => if k = i then some phase else w.calls k }

/-- `fault` is a failure of the system, if there is one. -/
inductive Event where
  | ask (i : Nat) (c : Call)
  | hold (i : Nat)
  | check (i : Nat) (fault : Option String)
  | number (i : Nat)
  | create (i : Nat) (fault : Option String)
  | write (i : Nat) (fault : Option (Nat × String))
  | rename (i : Nat) (fault : Option (Bool × String))
  | finish (i : Nat) (atMs : Nat)
  | kill (pid : Nat)

def World.ask (w : World Attr) (i : Nat) (c : Call) : World Attr :=
  if (w.calls i).isSome then w
  else w.at i (if isAbsolute c.path then .waiting c else .returned c (.error .pathNotAbsolute))

/-- A call waits while its path is in the table. -/
def World.hold (w : World Attr) (i : Nat) : World Attr :=
  match w.calls i with
  | some (.waiting c) =>
      if w.held (components c.path) then w
      else { w.at i (.holding c) with held := fun p => if p = components c.path then true else w.held p }
  | _ => w

/-- On disk is what the writer last read. -/
def World.agrees (w : World Attr) (c : Call) : Look → Bool
  | .file ino => c.was != "" && h.digest (w.disk.files ino).data == c.was
  | .free _ | .missing => c.was == ""
  | .other => false

def World.check (w : World Attr) (i : Nat) (fault : Option String) : World Attr :=
  match w.calls i with
  | some (.holding c) =>
      if WRITE_CAP < c.bytes.length then w.at i (.refused c .tooBigToWrite)
      else
        match fault, h.look w.disk LINKS (components c.path) with
        | some e, _ => w.at i (.refused c (.cantListDir e))
        | none, .other => w
        | none, found =>
            if w.agrees h c found then
              match fileName (components c.path) with
              | some _ => w.at i (.checked c)
              | none => w.at i (.refused c .notAFilePath)
            else w.at i (.refused c .fileChangedUnderYou)
  | _ => w

def World.number (w : World Attr) (i : Nat) : World Attr :=
  match w.calls i with
  | some (.checked c) => { w.at i (.numbered c w.counter) with counter := w.counter + 1 }
  | _ => w

def partName (name : String) (pid n : Nat) : String :=
  ".khor-save-" ++ name ++ "." ++ toString pid ++ "-" ++ toString n

/-- The path of the temporary: in the directory of the file. -/
def World.part (w : World Attr) (c : Call) (n : Nat) : List String :=
  (components c.path).dropLast ++ [partName ((fileName (components c.path)).getD "") w.pid n]

def World.create (w : World Attr) (i : Nat) (fault : Option String) : World Attr :=
  match w.calls i with
  | some (.numbered c n) =>
      match fault, h.look w.disk LINKS (w.part c n) with
      | some e, _ => w.at i (.refused c (.cantSaveFile e))
      | none, .file ino =>
          { w.at i (.opened c n ino) with
            disk := w.disk.fill ino []
            drafts := (h.own (w.part c n)).toList ++ w.drafts }
      | none, .free p =>
          { w.at i (.opened c n w.disk.next) with
            disk := w.disk.grow p ⟨[], h.fresh⟩
            drafts := (h.own (w.part c n)).toList ++ w.drafts }
      | none, _ => w
  | _ => w

/-- A write that fails leaves the bytes before it. -/
def World.write (w : World Attr) (i : Nat) (fault : Option (Nat × String)) : World Attr :=
  match w.calls i, fault with
  | some (.opened c n ino), none => { w.at i (.written c n ino) with disk := w.disk.fill ino c.bytes }
  | some (.opened c _ ino), some (k, e) =>
      { w.at i (.refused c (.cantSaveFile e)) with disk := w.disk.fill ino (c.bytes.take k) }
  | _, _ => w

/-- A rename that fails is followed by a removal, which may fail too. -/
def World.rename (w : World Attr) (i : Nat) (fault : Option (Bool × String)) : World Attr :=
  match w.calls i with
  | some (.written c n _) =>
      match h.own (w.part c n), h.own (components c.path), fault with
      | some part, _, some (true, e) =>
          { w.at i (.refused c (.cantSaveFile e)) with
            disk := w.disk.drop part
            drafts := w.drafts.filter (· ≠ part) }
      | _, _, some (_, e) => w.at i (.refused c (.cantSaveFile e))
      | some part, some p, none =>
          match w.disk.rename part p with
          | some disk =>
              { w.at i (.landed c) with
                disk
                drafts := w.drafts.filter (· ≠ part)
                log := w.log ++ [⟨i, p, c⟩] }
          | none => w
      | _, _, none => w
  | _ => w

/-- The hold is given up and the call answers. -/
def World.finish (w : World Attr) (i : Nat) (atMs : Nat) : World Attr :=
  match w.calls i with
  | some (.landed c) =>
      { w.at i (.returned c (.ok (atMs, h.digest c.bytes))) with
        held := fun p => if p = components c.path then false else w.held p }
  | some (.refused c r) =>
      { w.at i (.returned c (.error r)) with
        held := fun p => if p = components c.path then false else w.held p }
  | _ => w

/-- What becomes of a call when its process is killed. -/
def Phase.kill : Phase → Phase
  | .waiting c | .holding c | .checked c | .numbered c _ | .opened c _ _ | .written c _ _ | .landed c
  | .refused c _ => .killed c
  | phase => phase

/-- The next process has an empty table and counts from the start. -/
def World.kill (w : World Attr) (pid : Nat) : World Attr :=
  { w with pid, counter := 0, held := fun _ => false, calls := fun i => (w.calls i).map Phase.kill }

def World.step (w : World Attr) : Event → World Attr
  | .ask i c => w.ask i c
  | .hold i => w.hold i
  | .check i fault => w.check h i fault
  | .number i => w.number i
  | .create i fault => w.create h i fault
  | .write i fault => w.write i fault
  | .rename i fault => w.rename h i fault
  | .finish i atMs => w.finish h i atMs
  | .kill pid => w.kill pid

def World.start (disk : Tree Attr) (pid : Nat) : World Attr where
  disk
  pid
  counter := 0
  held := fun _ => false
  calls := fun _ => none
  drafts := []
  log := []

/-! ### What saves are for -/

/-- Each save started from what the one before it left. -/
def Chain (digest : Bytes → String) : Option Bytes → List Call → Option Bytes → Prop
  | first, [], last => last = first
  | none, c :: cs, last => c.was = "" ∧ Chain digest (some c.bytes) cs last
  | some b, c :: cs, last => c.was = digest b ∧ Chain digest (some c.bytes) cs last

/-- The saves of one file, in order. -/
def World.savesOf (w : World Attr) (p : Place) : List Call :=
  (w.log.filter (·.place = p)).map Landing.c

/-- The call has its save in place. -/
def Phase.Landed : Phase → Prop
  | .landed _ | .returned _ (.ok _) => True
  | _ => False

/-- What holds of the disk and of the answers. -/
structure Saved (disk : Tree Attr) (w : World Attr) : Prop where
  /-- The saves of a file that stand form a chain from the first contents to those there now. -/
  chain : ∀ p ∉ w.drafts, Chain h.digest (disk.text p) (w.savesOf p) (w.disk.text p)
  /-- All else about a file stays, or it is a new file. -/
  keeps : ∀ p ∉ w.drafts, disk.Keeps w.disk p ∨ disk.names p = none ∧ w.disk.Plain h.fresh p
  /-- A temporary stands where nothing was. -/
  drafts : ∀ p ∈ w.drafts, disk.names p = none ∧ w.savesOf p = []
  /-- An accepted call has its save among those that stand, and answers the digest of what it wrote. -/
  accepted : ∀ i c atMs digest, w.calls i = some (.returned c (.ok (atMs, digest))) →
    digest = h.digest c.bytes ∧ ∃ p, h.own (components c.path) = some p ∧ ⟨i, p, c⟩ ∈ w.log
  /-- No refused and no killed call has one. -/
  stands : ∀ l ∈ w.log, ∃ phase, w.calls l.call = some phase ∧ phase.Landed
  once : (w.log.map Landing.call).Nodup

/-! ### The condition -/

/-- A check that passes is not of a temporary. A temporary takes a free name, or one that a killed save left, and not
the name of a save in flight. What a rename goes over is a file with one name and the attributes of a new one, and no
save of it under another spelling is in flight. No kill comes between a rename and the answer. -/
def World.Meets (w : World Attr) : Event → Prop
  | .check i _ => ∀ c p, w.calls i = some (.holding c) → h.own (components c.path) = some p →
      w.agrees h c (h.look w.disk LINKS (components c.path)) = true → p ∉ w.drafts
  | .create i _ => ∀ c n q, w.calls i = some (.numbered c n) → h.own (w.part c n) = some q →
      (w.disk.names q = none ∨ q ∈ w.drafts) ∧
        ∀ j phase c', w.calls j = some phase → phase.passed = some c' → h.own (components c'.path) ≠ some q
  | .rename i none => ∀ c n ino p, w.calls i = some (.written c n ino) → h.own (components c.path) = some p →
      (w.disk.names p = none ∨ w.disk.Plain h.fresh p) ∧
        ∀ j phase c', w.calls j = some phase → phase.passed = some c' → h.own (components c'.path) = some p →
          components c'.path = components c.path
  | .kill _ => ∀ i c, w.calls i ≠ some (.landed c)
  | _ => True

end Saves

end Khor.Files
