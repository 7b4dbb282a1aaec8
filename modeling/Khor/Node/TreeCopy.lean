/-
Module: Khor.Node.TreeCopy
Purpose: A directory copied into the receive directory: the scan of the source, the landing beside the names that are
  there, the files copied one by one, the second scan, and the rename that replaces nothing. The source changes between
  any two calls, other programs create names in the receive directory, and the job is stopped at any moment.
Trusted boundary: a directory is listed at one moment, each name once; other programs create in the receive directory
  itself and take nothing away; the clean-up of a landing is not refused; counters of the job's progress left out
Main exports: Source, World, Receive, State, Job
-/
import Khor.Lib.Work
import Khor.Node.Tree

namespace Khor.Tree

abbrev Bytes := List UInt8

/-! ### The source -/

inductive Kind where
  | file
  | dir
  | link
  | other
deriving DecidableEq

structure Meta where
  kind : Kind
  len : Nat
  at_ms : Nat
  mode : Nat

/-- A name as the system gives it. -/
inductive OsName where
  | text (name : Name)
  | raw (bytes : Bytes)

/-- The source at one moment. What is asked of a path may be refused: the answer is none. A file is opened by its path
and read by what it is. -/
structure Source where
  canonical : Option (List Name)
  /-- The source is a link, and what it leads to is a file. -/
  leadsToFile : Bool
  stat : List Name → Option Meta
  names : List Name → Option (List OsName)
  file : List Name → Option Nat
  content : Nat → Bytes
  distinct : ∀ {dir listed}, names dir = some listed → listed.Nodup
  plain : ∀ {dir listed name}, names dir = some listed → .text name ∈ listed → '/' ∉ name

/-! ### The receive directory -/

inductive Item where
  | dir
  | file (bytes : Bytes) (mode : Nat)
deriving DecidableEq

/-- What stands under a name, and under the paths below it. -/
abbrev Thing := List Name → Option Item

/-- The receive directory with what stands in it, unless there is none. -/
abbrev Receive := Option (Name → Option Thing)

def Receive.names (r : Receive) (n : Name) : Option Thing := r.bind fun names => names n

/-- Other programs create the directory, and names in it that are free. -/
def Receive.grow : Receive → Receive → Receive
  | r, none => r
  | none, some others => some others
  | some names, some others => some fun n => (names n).or (others n)

def Receive.set (r : Receive) (n : Name) (thing : Option Thing) : Receive :=
  r.map fun names m => if m = n then thing else names m

/-! ### Calls -/

/-- What one call meets. `took` is how much a read takes, `fresh` are the permissions a new file gets. -/
structure Moment where
  source : Source
  dirCanonical : Option (List Name)
  others : Receive
  stopped : Bool
  fails : Bool
  took : Nat
  fresh : Nat

/-- The moments of the calls, one after another. -/
abbrev World := Nat → Moment

structure State where
  now : Nat
  dir : Receive

abbrev Job : Type → Type := Work Refusal State

def refuse {α : Type} (e : Refusal) : Job α := Work.fail e

section

variable (w : World)

/-- The next moment comes, with what others have created until then. -/
def tick : Job Moment := fun s => (.ok (w s.now), ⟨s.now + 1, s.dir.grow (w s.now).others⟩)

/-- A call that fails when the system says so. -/
def call : Job Moment := do
  let m ← tick w
  if m.fails then refuse .io else pure m

/-- What a call asks of the source. -/
def ask {α : Type} (answer : Source → Option α) : Job α := do
  let m ← call w
  match answer m.source with
  | some a => pure a
  | none => refuse .io

def isStopped : Job Bool := do
  let m ← tick w
  pure m.stopped

/-! ### Scanning -/

def spell (names : List Name) : Spelling := ['/'].intercalate names

structure Walk where
  todo : List (List Name)
  entries : List Entry
  total : Nat
  spelling : Nat

/-- How an entry is listed: a directory has no size. -/
def entryOf (path : Spelling) (found : Meta) : Entry :=
  { path := path
    dir := found.kind = .dir
    size := if found.kind = .dir then 0 else found.len
    at_ms := found.at_ms
    mode := found.mode % 0o1000 }

/-- Sums stay within a `usize` and a `u64`. -/
def visit (dir : List Name) (k : Walk) : OsName → Job Walk
  | .raw bytes => do
      let _ ← call w
      refuse (.unspelled dir bytes)
  | .text name => do
      let _ ← call w
      let path := spell (dir ++ [name])
      let _ ← Work.lift (relative path)
      let spelling := min (k.spelling + bytesOf path) (2 ^ 64 - 1)
      if MAX_ENTRIES ≤ k.entries.length ∨ MAX_PATH_BYTES < spelling then refuse .tooMany
      else do
        let found ← ask w fun source => source.stat (dir ++ [name])
        if found.kind ≠ .file ∧ found.kind ≠ .dir then refuse (.unsupported (dir ++ [name]))
        else
          let e := entryOf path found
          let total := min (k.total + e.size) (2 ^ 64 - 1)
          if CAP < total then refuse .tooBig
          else
            pure
              { todo := if e.dir then (dir ++ [name]) :: k.todo else k.todo
                entries := k.entries ++ [e]
                total := total
                spelling := spelling }

def visitAll (dir : List Name) : Walk → List OsName → Job Walk
  | k, [] => pure k
  | k, name :: rest => do
      let k ← visit w dir k name
      visitAll dir k rest

/-- Directories are read until none is left to read, the last one found first. -/
def walk : Nat → Walk → Job (List Entry)
  | _, ⟨[], entries, _, _⟩ => pure entries
  | 0, ⟨_ :: _, _, _, _⟩ => refuse .spent
  | fuel + 1, ⟨dir :: todo, entries, total, spelling⟩ => do
      let listed ← ask w fun source => source.names dir
      let k ← visitAll w dir ⟨todo, entries, total, spelling⟩ listed
      walk fuel k

/-- Every directory but the source itself is an entry, and there are not more than this. -/
def entriesOf : Job (List Entry) := walk w (MAX_ENTRIES + 1) ⟨[[]], [], 0, 0⟩

def scan (path : Spelling) : Job (Option Manifest) :=
  if path.head? ≠ some '/' then refuse (.notAbsolute path)
  else do
    let root ← ask w fun source => source.stat []
    let m ← tick w
    if root.kind = .file ∨ (root.kind = .link ∧ m.source.leadsToFile) then pure none
    else if root.kind ≠ .dir then refuse (.unsupported [])
    else do
      let entries ← entriesOf w
      let m ← Work.lift (checked entries)
      pure (some m)

/-! ### Landing -/

/-- The names of a landing in the receive directory. -/
structure Landing where
  part : Name
  dest : Name

def candidate (name : Name) (n : Nat) : Name := if n = 1 then name else name ++ '-' :: Nat.toDigits 10 n

/-- `.khor-pull-` in front of a name. -/
def partOf (name : Name) : Name := ['.', 'k', 'h', 'o', 'r', '-', 'p', 'u', 'l', 'l', '-'] ++ name

/-- `create_dir_all` of the receive directory. -/
def makeReceive : Job Unit := do
  let _ ← call w
  fun s => (.ok (), { s with dir := some (s.dir.getD fun _ => none) })

/-- Whether anything is seen under a name. -/
def taken (name : Name) : Job Bool := do
  let m ← tick w
  fun s => (.ok ((s.dir.names name).isSome && !m.fails), s)

/-- A new directory holds nothing. -/
def empty : Thing := fun path => if path = [] then some .dir else none

/-- `create_dir`: whether it made one, or found the name taken. -/
def makePart (part : Name) : Job Bool := do
  let _ ← call w
  fun s =>
    if s.dir = none then (.error .io, s)
    else if (s.dir.names part).isSome then (.ok false, s)
    else (.ok true, { s with dir := s.dir.set part (some empty) })

/-- The loop of `Landing::new`, from the `n`-th name on. -/
def seek (name : Name) : Nat → Nat → Job Landing
  | 0, _ => refuse (.destExists name)
  | left + 1, n => do
      let dest := candidate name n
      let there ← taken w dest
      if there then seek name left (n + 1)
      else do
        let made ← makePart w (partOf dest)
        if made then pure ⟨partOf dest, dest⟩ else seek name left (n + 1)

def landing (name : Name) : Job Landing := do
  let names ← Work.lift (relative name)
  if names.length ≠ 1 then refuse (.badPath name)
  else do
    makeReceive w
    seek w name 9999 1

/-! ### Copying -/

/-- A new item in the part: below a directory, and where nothing stands. -/
def makeIn (part : Name) (path : List Name) (item : Moment → Item) : Job Unit := do
  let m ← call w
  fun s =>
    match s.dir.names part with
    | none => (.error .io, s)
    | some thing =>
        if thing path.dropLast = some .dir ∧ thing path = none then
          (.ok (), { s with dir := s.dir.set part (some fun p => if p = path then some (item m) else thing p) })
        else (.error .io, s)

/-- What stands under a path in the part is changed. -/
def changeIn (part : Name) (path : List Name) (change : Bytes → Nat → Item) : Job Unit := do
  let _ ← call w
  fun s =>
    match s.dir.names part with
    | none => (.error .io, s)
    | some thing =>
        match thing path with
        | some (.file bytes mode) =>
            (.ok (), { s with dir := s.dir.set part (some fun p => if p = path then some (change bytes mode) else thing p) })
        | _ => (.error .io, s)

/-- `input.read(&mut buf)`: at least one byte where there is one, and not more than the buffer holds. -/
def readAt (file moved : Nat) : Job Bytes := do
  let m ← call w
  pure (((m.source.content file).drop moved).take (min (m.took + 1) (64 * 1024)))

/-- The loop over a file: what was moved is not more than was listed. -/
def pump (part : Name) (path : List Name) (size file : Nat) : Nat → Nat → Job Nat
  | 0, _ => refuse .spent
  | fuel + 1, moved => do
      let stop ← isStopped w
      if stop then refuse .cancelled
      else do
        let piece ← readAt w file moved
        if piece = [] then pure moved
        else if size < moved + piece.length then refuse .changed
        else do
          changeIn w part path fun bytes mode => .file (bytes ++ piece) mode
          pump part path size file fuel (moved + piece.length)

def copyFile (part : Name) (path : List Name) (size : Nat) : Job Unit := do
  let file ← ask w fun source => source.file path
  makeIn w part path fun m => .file [] m.fresh
  let moved ← pump w part path size file (size + 1) 0
  if moved ≠ size then refuse .changed else pure ()

def copyEntry (part : Name) (e : Entry) : Job Unit := do
  let stop ← isStopped w
  if stop then refuse .cancelled
  else do
    let path ← Work.lift (relative e.path)
    if e.dir then makeIn w part path fun _ => .dir else copyFile w part path e.size

def copyAll (part : Name) : List Entry → Job Unit
  | [] => pure ()
  | e :: rest => do
      copyEntry w part e
      copyAll part rest

/-- Files whose permissions are known get them. -/
def permit (part : Name) : List Entry → Job Unit
  | [] => pure ()
  | e :: rest =>
      if e.dir = false ∧ e.mode ≠ 0 then do
        let path ← Work.lift (relative e.path)
        changeIn w part path fun bytes _ => .file bytes (e.mode % 0o1000)
        permit part rest
      else permit part rest

def permissions (part : Name) (m : Manifest) : Job Unit := permit w part m.entries.reverse

/-- `rename_new`: nothing that is there is replaced. -/
def renameNew (at_ : Landing) : Job Unit := do
  let _ ← call w
  fun s =>
    if (s.dir.names at_.dest).isSome then (.error .io, s)
    else (.ok (), { s with dir := (s.dir.set at_.dest (s.dir.names at_.part)).set at_.part none })

def publish (at_ : Landing) : Job Name := do
  let there ← taken w at_.dest
  if there then refuse (.destExists at_.dest)
  else do
    renameNew w at_
    pure at_.dest

/-- A landing that is dropped unpublished takes its part away. -/
def sweep (part : Name) : Job Unit := do
  let _ ← tick w
  fun s => (.ok (), { s with dir := s.dir.set part none })

/-- From the landing on. -/
def fill (source : Spelling) (m : Manifest) (at_ : Landing) : Job Name := do
  copyAll w at_.part m.entries
  let stop ← isStopped w
  if stop then refuse .cancelled
  else do
    let again ← scan w source
    if again ≠ some m then refuse .changed
    else do
      permissions w at_.part m
      publish w at_

/-- What fails with a landing drops it. -/
def dropping (at_ : Landing) (x : Job Name) : Job Name := fun s =>
  match x s with
  | (.ok dest, s') => (.ok dest, s')
  | (.error e, s') => (.error e, (sweep w at_.part s').2)

/-- `drops::name_of`: the last part of a path, unless it leads up. -/
def nameOf (path : Spelling) : Except Refusal Name :=
  match ((parts path).filter fun part => part != [] && part != ['.']).getLast? with
  | none => .error (.notAFilePath path)
  | some name => if name = ['.', '.'] then .error (.notAFilePath path) else .ok name

def copyInto (source : Spelling) : Job Name := do
  let canonical ← ask w fun source => source.canonical
  let m ← tick w
  if m.dirCanonical.any fun dir => canonical.isPrefixOf dir then refuse .copyInside
  else do
    let found ← scan w source
    match found with
    | none => refuse (.notAFilePath source)
    | some manifest => do
        let name ← Work.lift (nameOf source)
        let at_ ← landing w name
        dropping w at_ (fill w source manifest at_)

end

end Khor.Tree
