/-
Module: Khor.Files.Landing
Purpose: Files moved into one directory by any number of movers at once: the look for a name, the part file that
  reserves it, the bytes into it and the rename into place, with other programs creating files there.
Trusted boundary: `open`, `write` and `rename` as the disk has them; a part's name that a link stands under is not opened
Main exports: candidate, partOf, noteOf, Phase, World
-/
import Khor.Lib.Disk
import Khor.Lib.Runs

namespace Khor.Landing

abbrev Bytes := List UInt8

/-! ### Names -/

/-- The part of a name before its last dot, and the part after it. A name that begins with its only dot has none. -/
def stemAndExt (name : String) : String × Option String :=
  match name.toList.reverse.span (· ≠ '.') with
  | (ext, _ :: stem@(_ :: _)) => (String.ofList stem.reverse, some (String.ofList ext.reverse))
  | _ => (name, none)

/-- The names that are tried in turn. -/
def candidate (name : String) (n : Nat) : String :=
  if n = 1 then name
  else
    match stemAndExt name with
    | (stem, some ext) => stem ++ "-" ++ toString n ++ "." ++ ext
    | (stem, none) => stem ++ "-" ++ toString n

/-- The part file of a destination. -/
def partOf (dest : String) : String := ".khor-pull-" ++ dest

/-- What a part file holds the first bytes of, beside it. -/
def noteOf (dest : String) : String := partOf dest ++ ".json"

/-! ### Movers -/

/-- How the bytes come: pulled in slices, copied from this machine, copied from where they landed before, or renamed
from the file they were received into. -/
inductive Road where
  | pull
  | copy
  | offer
  | settle
deriving DecidableEq

/-- `suffixed` is for `drops::landing`, and its lack for `files::landing`. `body` is what the mover brings. -/
structure Mover where
  suffixed : Bool
  road : Road
  name : String
  body : Bytes

/-- Where a mover is: looking at a name, past the look, with its landing, with its part open, with its part whole, with
its file in place, with a failure it cleans up after, without a landing, at its end, and at its end without a file. -/
inductive Phase where
  | looking (m : Mover) (n : Nat)
  | found (m : Mover) (n : Nat)
  | given (m : Mover) (dest : String)
  | filling (m : Mover) (dest : String) (ino offset : Nat) (append : Bool)
  | filled (m : Mover) (dest : String)
  | placed (m : Mover) (dest : String)
  | failed (m : Mover) (dest : String)
  | refused (m : Mover)
  | done (m : Mover) (dest : String)
  | gone (m : Mover) (dest : String)

/-- The destination of a mover that is not at its end. -/
def Phase.flight : Phase → Option String
  | .given _ dest | .filling _ dest _ _ _ | .filled _ dest | .placed _ dest | .failed _ dest => some dest
  | _ => none

/-- The destination of a mover that may have it still. -/
def Phase.has : Phase → Option String
  | .given _ dest | .filling _ dest _ _ _ | .filled _ dest | .placed _ dest | .failed _ dest | .done _ dest =>
      some dest
  | _ => none

/-- A link is told by whether what it leads to is there. -/
abbrev Dir := Disk String Bool Unit

/-- `temps` are the part files and notes that are there, `log` is what other programs created. -/
structure World where
  disk : Dir
  movers : Nat → Option Phase
  temps : List String
  log : List (String × Bytes)

def World.at (w : World) (i : Nat) (phase : Phase) : World :=
  { w with movers := fun k => if k = i then some phase else w.movers k }

/-- `exists`: links are followed. -/
def there (d : Dir) (p : String) : Bool :=
  match d.names p with
  | none => false
  | some (.link leads) => leads
  | _ => true

/-- `fault` says whether the system fails the step. -/
inductive Event where
  | begin_ (i : Nat) (m : Mover)
  | look (i : Nat)
  | make (i : Nat) (fault : Bool)
  | open_ (i : Nat) (resume : Bool)
  | put (i k : Nat)
  | note (i : Nat) (text : Bytes)
  | settle (i : Nat)
  | place (i : Nat) (fault : Bool)
  | finish (i : Nat) (wire : Bool)
  | fail (i : Nat)
  | clean (i : Nat) (note : Bool)
  | quit (i : Nat)
  | other (p : String) (body : Bytes)

def World.begin_ (w : World) (i : Nat) (m : Mover) : World :=
  if (w.movers i).isSome then w else w.at i (.looking m 1)

/-- A taken name is passed over, or refused where names are not suffixed. -/
def World.look (w : World) (i : Nat) : World :=
  match w.movers i with
  | some (.looking m n) =>
      if m.suffixed then
        if 10000 ≤ n then w.at i (.refused m)
        else if (w.disk.names (candidate m.name n)).isSome then w.at i (.looking m (n + 1))
        else w.at i (.found m n)
      else if there w.disk m.name then w.at i (.refused m)
      else w.at i (.given m m.name)
  | _ => w

/-- The part file is made, and only if it is not there. -/
def World.make (w : World) (i : Nat) (fault : Bool) : World :=
  match w.movers i with
  | some (.found m n) =>
      if fault then w.at i (.refused m)
      else if (w.disk.names (partOf (candidate m.name n))).isSome then w.at i (.looking m (n + 1))
      else
        { w.at i (.given m (candidate m.name n)) with
          disk := w.disk.grow (partOf (candidate m.name n)) ⟨[], ()⟩
          temps := partOf (candidate m.name n) :: w.temps }
  | _ => w

/-- A pull that resumes carries on after what the part has, all else starts it over. -/
def World.open_ (w : World) (i : Nat) (resume : Bool) : World :=
  match w.movers i with
  | some (.given m dest) =>
      match w.disk.names (partOf dest) with
      | none =>
          { w.at i (.filling m dest w.disk.next 0 false) with
            disk := w.disk.grow (partOf dest) ⟨[], ()⟩
            temps := partOf dest :: w.temps }
      | some (.file ino) =>
          if resume && m.road = .pull then w.at i (.filling m dest ino (w.disk.files ino).data.length true)
          else { w.at i (.filling m dest ino 0 false) with disk := w.disk.fill ino [] }
      | _ => w
  | _ => w

/-- Bytes at a place of a file, after zeros where the file is shorter. -/
def splice (data : Bytes) (offset : Nat) (bytes : Bytes) : Bytes :=
  data.take offset ++ List.replicate (offset - data.length) 0 ++ bytes ++ data.drop (offset + bytes.length)

/-- At most `k` of the bytes that are left are written. -/
def World.put (w : World) (i k : Nat) : World :=
  match w.movers i with
  | some (.filling m dest ino offset append) =>
      let data := (w.disk.files ino).data
      let bytes := (m.body.drop offset).take k
      { w.at i (if m.body.length ≤ offset + bytes.length then .filled m dest
          else .filling m dest ino (offset + bytes.length) append) with
        disk := w.disk.fill ino (splice data (if append then data.length else offset) bytes) }
  | _ => w

/-- A pull writes down what its part is of. -/
def World.note (w : World) (i : Nat) (text : Bytes) : World :=
  match w.movers i with
  | some (.filling m dest _ _ _) =>
      if m.road = .pull then
        match w.disk.names (noteOf dest) with
        | none => { w with disk := w.disk.grow (noteOf dest) ⟨text, ()⟩, temps := noteOf dest :: w.temps }
        | some (.file ino) => { w with disk := w.disk.fill ino text }
        | _ => w
      else w
  | _ => w

/-- The received file is renamed over the destination. -/
def World.settle (w : World) (i : Nat) : World :=
  match w.movers i with
  | some (.given m dest) =>
      if m.road = .settle then
        match w.disk.names dest with
        | some .dir => w
        | _ => { w.at i (.placed m dest) with disk := w.disk.grow dest ⟨m.body, ()⟩ }
      else w
  | _ => w

/-- The part is renamed over the destination. -/
def World.place (w : World) (i : Nat) (fault : Bool) : World :=
  match w.movers i with
  | some (.filled m dest) =>
      if fault then w.at i (.failed m dest)
      else
        match w.disk.rename (partOf dest) dest with
        | some disk =>
            { w.at i (.placed m dest) with
              disk
              temps := w.temps.filter (· ≠ partOf dest) }
        | none => w
  | _ => w

def World.remove (w : World) (p : String) : World :=
  { w with disk := w.disk.drop p, temps := w.temps.filter (· ≠ p) }

/-- A pull over a wire takes its note away, a received file the part that reserved its name. -/
def World.finish (w : World) (i : Nat) (wire : Bool) : World :=
  match w.movers i with
  | some (.placed m dest) =>
      match m.road with
      | .pull => if wire then (w.at i (.done m dest)).remove (noteOf dest) else w.at i (.done m dest)
      | .copy => w.at i (.done m dest)
      | .offer | .settle => (w.at i (.done m dest)).remove (partOf dest)
  | _ => w

def World.fail (w : World) (i : Nat) : World :=
  match w.movers i with
  | some (.given m dest) | some (.filling m dest _ _ _) | some (.filled m dest) => w.at i (.failed m dest)
  | _ => w

/-- A failed mover takes away its part and its note, each as often as its callers do. -/
def World.clean (w : World) (i : Nat) (note : Bool) : World :=
  match w.movers i with
  | some (.failed _ dest) => w.remove (if note then noteOf dest else partOf dest)
  | _ => w

def World.quit (w : World) (i : Nat) : World :=
  match w.movers i with
  | some (.failed m dest) => w.at i (.gone m dest)
  | _ => w

/-- Another program creates a file. -/
def World.other (w : World) (p : String) (body : Bytes) : World :=
  if (w.disk.names p).isSome then w
  else { w with disk := w.disk.grow p ⟨body, ()⟩, log := (p, body) :: w.log }

def World.step (w : World) : Event → World
  | .begin_ i m => w.begin_ i m
  | .look i => w.look i
  | .make i fault => w.make i fault
  | .open_ i resume => w.open_ i resume
  | .put i k => w.put i k
  | .note i text => w.note i text
  | .settle i => w.settle i
  | .place i fault => w.place i fault
  | .finish i wire => w.finish i wire
  | .fail i => w.fail i
  | .clean i note => w.clean i note
  | .quit i => w.quit i
  | .other p body => w.other p body

def World.start (disk : Dir) : World where
  disk
  movers := fun _ => none
  temps := []
  log := []

/-! ### What landings are for -/

/-- What holds of the directory and of the movers. -/
structure Kept (disk : Dir) (w : World) : Prop where
  /-- What was there first is there, with its contents. -/
  stays : ∀ p, disk.names p ≠ none → w.disk.names p = disk.names p ∧ w.disk.text p = disk.text p
  /-- So is what other programs created. -/
  others : ∀ p body, (p, body) ∈ w.log → w.disk.text p = some body
  /-- No two movers have one destination, and so one part file. -/
  apart : ∀ i j phase phase' dest, w.movers i = some phase → w.movers j = some phase' → phase.has = some dest →
    phase'.has = some dest → i = j
  /-- A mover that reports success finds its bytes under the name it reports. -/
  lands : ∀ i m dest, w.movers i = some (.done m dest) → w.disk.text dest = some m.body

/-! ### The condition -/

/-- The names of two movers do not meet. -/
structure Apart (dest dest' : String) : Prop where
  dests : dest ≠ dest'
  part : dest ≠ partOf dest'
  note : dest ≠ noteOf dest'
  part' : dest' ≠ partOf dest
  note' : dest' ≠ noteOf dest
  partNote : partOf dest ≠ noteOf dest'
  notePart : noteOf dest ≠ partOf dest'

/-- A name for a temporary: free, or a temporary that was left. -/
def World.Spare (w : World) (p : String) : Prop := w.disk.names p = none ∨ p ∈ w.temps

/-- A mover may be given the destination: nothing is there, no mover in flight has it, and its temporaries are no
other's and nobody's files. -/
structure World.Clear (w : World) (dest : String) : Prop where
  free : w.disk.names dest = none
  part : w.Spare (partOf dest)
  note : w.Spare (noteOf dest)
  apart : ∀ j phase dest', w.movers j = some phase → phase.flight = some dest' → Apart dest dest'

/-- Where a mover is given a destination, it may be given it. A pull carries on only after the first bytes of what it
pulls. Other programs leave alone the destinations and temporaries of movers in flight. -/
def World.Meets (w : World) : Event → Prop
  | .look i => ∀ m n, w.movers i = some (.looking m n) → m.suffixed = false → there w.disk m.name = false →
      w.Clear m.name
  | .make i _ => ∀ m n, w.movers i = some (.found m n) → w.disk.names (partOf (candidate m.name n)) = none →
      w.Clear (candidate m.name n)
  | .open_ i resume => ∀ m dest ino, w.movers i = some (.given m dest) → resume = true →
      w.disk.names (partOf dest) = some (.file ino) → (w.disk.files ino).data <+: m.body
  | .other p _ => ∀ j phase dest, w.movers j = some phase → phase.flight = some dest →
      p ≠ dest ∧ p ≠ partOf dest ∧ p ≠ noteOf dest
  | _ => True

end Khor.Landing
