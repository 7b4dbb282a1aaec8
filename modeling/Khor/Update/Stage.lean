/-
Module: Khor.Update.Stage
Purpose: The directories that release downloads work in: how one is made, used and taken down again, and how
  the ones that were left behind are collected, call by call (crates/update/src/package_stage.rs, download.rs).
Trusted boundary: serde_json, the release signatures, tempfile and the file system
Main exports: Externals, Disk, Downloader, World.step
-/
import Khor.Lib.Runs

namespace Khor.Update

abbrev Bytes := List UInt8
abbrev Pid := Nat

def RECORD_LIMIT : Nat := 384 * 1024

def FILES : List String := ["owner.json", "lease", "asset", "khor", "khor.exe"]

def u64Max : Nat := 2 ^ 64 - 1

def saturatingAdd (a b : Nat) : Nat := min (a + b) u64Max

structure Owner (R : Type) where
  schema : UInt8
  nonce : String
  release : R

/-- What is used of other crates: the codec of ownership records, and `TrustRoot::restore`, which takes a signed
release or not. -/
structure Externals (R : Type) where
  toVec : Owner R → Bytes
  fromSlice : Bytes → Option (Owner R)
  restore : R → Bool

/-! ### The disk -/

/-- A name in a directory: the file it stands for, and whether that is what `regular_file` takes. -/
structure File where
  node : Nat
  regular : Bool

/-- A directory, whether nobody else has access to it, and its files by their names. -/
structure Dir where
  node : Nat
  isPrivate : Bool
  files : AList fun _ : String => File

inductive Entry where
  | dir (d : Dir)
  | other

/-- The download root by names, the contents of files, the next file, and who holds the lock of a file. -/
structure Disk where
  root : AList fun _ : String => Entry
  data : Nat → Bytes
  nodes : Nat
  locks : Nat → Option Pid

namespace Disk

def dir? (disk : Disk) (X : String) : Option Dir :=
  match disk.root.lookup X with
  | some (.dir d) => some d
  | _ => none

def file? (disk : Disk) (X name : String) : Option File :=
  (disk.dir? X).bind fun d => d.files.lookup name

def setDir (disk : Disk) (X : String) (d : Dir) : Disk :=
  { disk with root := disk.root.insert X (.dir d) }

def mkdir (disk : Disk) (X : String) (isPrivate : Bool) : Disk :=
  { disk.setDir X ⟨disk.nodes, isPrivate, ∅⟩ with nodes := disk.nodes + 1 }

def chmod (disk : Disk) (X : String) : Disk :=
  match disk.dir? X with
  | some d => disk.setDir X { d with isPrivate := true }
  | none => disk

/-- Open a new file: its node is `disk.nodes`. -/
def create (disk : Disk) (X name : String) : Disk :=
  match disk.dir? X with
  | some d =>
      { disk.setDir X { d with files := d.files.insert name ⟨disk.nodes, true⟩ } with
        data := fun node => if node = disk.nodes then [] else disk.data node
        nodes := disk.nodes + 1 }
  | none => disk

def append (disk : Disk) (node : Nat) (piece : Bytes) : Disk :=
  { disk with data := fun other => if other = node then disk.data node ++ piece else disk.data other }

def unlink (disk : Disk) (X name : String) : Disk :=
  match disk.dir? X with
  | some d => disk.setDir X { d with files := d.files.erase name }
  | none => disk

def rmdir (disk : Disk) (X : String) : Disk :=
  { disk with root := disk.root.erase X }

def lock (disk : Disk) (node : Nat) (p : Pid) : Disk :=
  { disk with locks := fun other => if other = node then some p else disk.locks other }

/-- A handle is closed: its lock, if it has it, is given up. -/
def unlock (disk : Disk) (node : Nat) (p : Pid) : Disk :=
  { disk with locks := fun other => if other = node ∧ disk.locks node = some p then none else disk.locks other }

/-- A process is gone, and the locks it had. -/
def forget (disk : Disk) (p : Pid) : Disk :=
  { disk with locks := fun node => if disk.locks node = some p then none else disk.locks node }

end Disk

/-- What a process does next where the code leaves it open. -/
inductive Act where
  | go
  | draw (X : String) (isPrivate : Bool)
  | part (count : Nat)
  | create (name : String)
  | append (name : String) (piece : Bytes)
  | moveAway
  | fails
  | listed (names : List String)

/-- What a listing gave, for the calls that list a directory. -/
def Act.names : Act → List String
  | .listed names => names
  | _ => []

/-! ### A downloader -/

/-- A process with a `PackageStage`, before each of its calls: `PackageStage::new`, the work in the stage, and the
drop, which closes the lease and removes the directory. -/
inductive Downloader (R : Type) where
  | tempdir (release : R)
  | permissions (X : String) (release : R)
  | openLease (X : String) (release : R)
  | lockLease (X : String) (release : R) (node : Nat)
  | openRecord (X : String) (release : R) (node : Nat)
  | write (X : String) (node record : Nat) (left : Bytes)
  | staged (X : String) (node : Nat)
  | close (X : String) (node : Nat)
  | list (X : String)
  | clear (X : String) (names : List String)
  | rmdir (X : String)

namespace Downloader

variable {R : Type}

/-- The files a download puts beside its record: the archive and the program unpacked from it. -/
def assets : List String := ["asset", "khor", "khor.exe"]

/-- What can come next. A failed call, and a download that is given up, drop what there is of the stage. -/
inductive Able (disk : Disk) : Downloader R → Act → Prop
  | tempdir {release X isPrivate} (named : "download-".isPrefixOf X = true) (free : X ∉ disk.root) :
      Able disk (tempdir release) (.draw X isPrivate)
  | permissions {X release} : Able disk (permissions X release) .go
  | openLease {X release} : Able disk (openLease X release) .go
  | lockLease {X release node} (free : disk.locks node = none) : Able disk (lockLease X release node) .go
  | openRecord {X release node} : Able disk (openRecord X release node) .go
  | write {X node record left count} (some_ : 0 < count) (le : count ≤ left.length) :
      Able disk (write X node record left) (.part count)
  | written {X node record} : Able disk (write X node record []) .go
  | create {X node name} (asset : name ∈ assets) (free : disk.file? X name = none) :
      Able disk (staged X node) (.create name)
  | append {X node name piece} (asset : name ∈ assets) (there : (disk.file? X name).isSome) :
      Able disk (staged X node) (.append name piece)
  | moveAway {X node} (there : (disk.file? X "asset").isSome) : Able disk (staged X node) .moveAway
  | finished {X node} : Able disk (staged X node) .go
  | permissionsFails {X release} : Able disk (permissions X release) .fails
  | openLeaseFails {X release} : Able disk (openLease X release) .fails
  | lockLeaseFails {X release node} : Able disk (lockLease X release node) .fails
  | openRecordFails {X release node} : Able disk (openRecord X release node) .fails
  | writeFails {X node record left} : Able disk (write X node record left) .fails
  | close {X node} : Able disk (close X node) .go
  | list {X names} (all : ∀ d, disk.dir? X = some d → names.Perm d.files.keys) : Able disk (list X) (.listed names)
  | clear {X names} : Able disk (clear X names) .go
  | rmdir {X} : Able disk (rmdir X) .go

variable (x : Externals R) (p : Pid) (disk : Disk)

def step : Downloader R → Act → Option (Downloader R) × Disk
  | tempdir release, .draw X isPrivate => (some (permissions X release), disk.mkdir X isPrivate)
  | permissions X release, .go => (some (openLease X release), disk.chmod X)
  | permissions X _, .fails => (some (list X), disk)
  | openLease X release, .go => (some (lockLease X release disk.nodes), disk.create X "lease")
  | openLease X _, .fails => (some (list X), disk)
  | lockLease X release node, .go => (some (openRecord X release node), disk.lock node p)
  | lockLease X _ node, .fails => (some (close X node), disk)
  | openRecord X release node, .go =>
      let bytes := x.toVec ⟨1, X, release⟩
      if RECORD_LIMIT < bytes.length then (some (close X node), disk)
      else (some (write X node disk.nodes bytes), disk.create X "owner.json")
  | openRecord X _ node, .fails => (some (close X node), disk)
  | write X node record left, .part count =>
      (some (write X node record (left.drop count)), disk.append record (left.take count))
  | write X node _ _, .go => (some (staged X node), disk)
  | write X node _ _, .fails => (some (close X node), disk)
  | staged X node, .create name => (some (staged X node), disk.create X name)
  | staged X node, .append name piece =>
      match disk.file? X name with
      | some file => (some (staged X node), disk.append file.node piece)
      | none => (some (staged X node), disk)
  | staged X node, .moveAway => (some (staged X node), disk.unlink X "asset")
  | staged X node, .go => (some (close X node), disk)
  | close X node, .go => (some (list X), disk.unlock node p)
  | list X, .listed names =>
      match disk.dir? X with
      | some _ => (some (clear X names), disk)
      | none => (none, disk)
  | clear X [], .go => (some (rmdir X), disk)
  | clear X (name :: names), .go => (some (clear X names), disk.unlink X name)
  | rmdir X, .go =>
      match disk.dir? X with
      | some d => (none, if d.files.keys = [] then disk.rmdir X else disk)
      | none => (none, disk)
  | d, _ => (some d, disk)

end Downloader

/-! ### A collector -/

/-- `collect_one`, before each of its calls. -/
inductive One where
  | metadata
  | list
  | sizes (names : List String) (bytes : Nat)
  | recordMetadata (bytes : Nat)
  | recordOpen (bytes : Nat)
  | recordRead (node bytes : Nat)
  | leaseMetadata (bytes : Nat)
  | leaseOpen (bytes : Nat)
  | tryLock (node bytes : Nat)
  | assets (names : List String) (node bytes : Nat)
  | record (node bytes : Nat)
  | drop (node bytes : Nat)
  | lease (bytes : Nat)
  | rmdir (bytes : Nat)

inductive Outcome where
  | goes (at_ : One)
  | failed
  | reclaimed (bytes : Nat)

namespace One

variable {R : Type} (x : Externals R) (p : Pid) (X : String) (listed : List String) (disk : Disk)

/-- What the record has to say: it is a record of this directory, and its release is authentic. -/
def accepts (document : Bytes) : Bool :=
  let document := document.take (RECORD_LIMIT + 1)
  if RECORD_LIMIT < document.length then false
  else match x.fromSlice document with
    | none => false
    | some owner => !(owner.schema != 1 || X != owner.nonce) && x.restore owner.release

/-- `regular_file` of a name in the directory. -/
def regularFile (name : String) : Option File :=
  match disk.file? X name with
  | some file => if file.regular then some file else none
  | none => none

def step : One → Outcome × Disk
  | metadata =>
      match disk.dir? X with
      | some d => if d.isPrivate then (.goes list, disk) else (.failed, disk)
      | none => (.failed, disk)
  | list =>
      match disk.dir? X with
      | some _ => (.goes (sizes listed 0), disk)
      | none => (.failed, disk)
  | sizes [] bytes => (.goes (recordMetadata bytes), disk)
  | sizes (name :: names) bytes =>
      if name ∉ FILES then (.failed, disk)
      else match regularFile X disk name with
        | some file => (.goes (sizes names (saturatingAdd bytes (disk.data file.node).length)), disk)
        | none => (.failed, disk)
  | recordMetadata bytes =>
      match regularFile X disk "owner.json" with
      | some _ => (.goes (recordOpen bytes), disk)
      | none => (.failed, disk)
  | recordOpen bytes =>
      match disk.file? X "owner.json" with
      | some file => (.goes (recordRead file.node bytes), disk)
      | none => (.failed, disk)
  | recordRead node bytes =>
      if accepts x X (disk.data node) then (.goes (leaseMetadata bytes), disk) else (.failed, disk)
  | leaseMetadata bytes =>
      match regularFile X disk "lease" with
      | some _ => (.goes (leaseOpen bytes), disk)
      | none => (.failed, disk)
  | leaseOpen bytes =>
      match disk.file? X "lease" with
      | some file => (.goes (tryLock file.node bytes), disk)
      | none => (.failed, disk)
  | tryLock node bytes =>
      match disk.locks node with
      | none => (.goes (assets (FILES.filter fun name => name != "lease" && name != "owner.json") node bytes),
          disk.lock node p)
      | some _ => (.failed, disk)
  | assets [] node bytes => (.goes (record node bytes), disk)
  | assets (name :: names) node bytes => (.goes (assets names node bytes), disk.unlink X name)
  | record node bytes =>
      match disk.file? X "owner.json" with
      | some _ => (.goes (drop node bytes), disk.unlink X "owner.json")
      | none => (.failed, disk.unlock node p)
  | drop node bytes => (.goes (lease bytes), disk.unlock node p)
  | lease bytes =>
      match disk.file? X "lease" with
      | some _ => (.goes (rmdir bytes), disk.unlink X "lease")
      | none => (.failed, disk)
  | rmdir bytes =>
      match disk.dir? X with
      | some d => if d.files.keys = [] then (.reclaimed bytes, disk.rmdir X) else (.failed, disk)
      | none => (.failed, disk)

end One

/-- `collect_downloads`: the entries still to be looked at, each with whether it was a directory, and the bytes
reclaimed so far. -/
inductive Collector where
  | root
  | next (left : List (String × Bool)) (bytes : Nat)
  | one (X : String) (left : List (String × Bool)) (bytes : Nat) (at_ : One)
  | done (bytes : Nat)

namespace Collector

inductive Able (disk : Disk) : Collector → Act → Prop
  | root {names} (all : names.Perm disk.root.keys) : Able disk root (.listed names)
  | list {X left bytes names} (all : ∀ d, disk.dir? X = some d → names.Perm d.files.keys) :
      Able disk (one X left bytes .list) (.listed names)
  | next {left bytes} : Able disk (next left bytes) .go
  | one {X left bytes at_} (other : at_ ≠ .list) : Able disk (one X left bytes at_) .go

variable {R : Type} (x : Externals R) (p : Pid) (listed : List String) (disk : Disk)

def step : Collector → Collector × Disk
  | root => (next ((listed.map fun name => (name, (disk.dir? name).isSome)).take 256) 0, disk)
  | next [] bytes => (done bytes, disk)
  | next ((X, isDir) :: left) bytes =>
      if !"download-".isPrefixOf X || !isDir then (next left bytes, disk) else (one X left bytes .metadata, disk)
  | one X left bytes at_ =>
      match at_.step x p X listed disk with
      | (.goes at_, disk) => (one X left bytes at_, disk)
      | (.failed, disk) => (next left bytes, disk)
      | (.reclaimed reclaimed, disk) => (next left (saturatingAdd bytes reclaimed), disk)
  | done bytes => (done bytes, disk)

end Collector

/-! ### The processes -/

inductive Proc (R : Type) where
  | downloader (d : Downloader R)
  | collector (c : Collector)

structure World (R : Type) where
  disk : Disk
  procs : Pid → Option (Proc R)

inductive Event (R : Type) where
  | download (p : Pid) (release : R)
  | collect (p : Pid)
  | act (p : Pid) (a : Act)
  | kill (p : Pid)

namespace World

variable {R : Type}

def setProc (w : World R) (p : Pid) (proc : Option (Proc R)) (disk : Disk) : World R :=
  ⟨disk, fun q => if q = p then proc else w.procs q⟩

def act (x : Externals R) (w : World R) (p : Pid) (a : Act) : World R :=
  match w.procs p with
  | some (.downloader d) =>
      let (d, disk) := d.step x p w.disk a
      w.setProc p (d.map .downloader) disk
  | some (.collector c) =>
      let (c, disk) := c.step x p a.names w.disk
      w.setProc p (some (.collector c)) disk
  | none => w

def step (x : Externals R) (w : World R) : Event R → World R
  | .download p release => w.setProc p (some (.downloader (.tempdir release))) w.disk
  | .collect p => w.setProc p (some (.collector .root)) w.disk
  | .act p a => w.act x p a
  | .kill p => w.setProc p none (w.disk.forget p)

/-- What can happen. An offer's release is one that the trust root has taken. -/
inductive Permits (x : Externals R) (w : World R) : Event R → Prop
  | download {p release} (free : w.procs p = none) (authentic : x.restore release = true) :
      Permits x w (.download p release)
  | collect {p} (free : w.procs p = none) : Permits x w (.collect p)
  | downloader {p d a} (is : w.procs p = some (.downloader d)) (able : d.Able w.disk a) : Permits x w (.act p a)
  | collector {p c a} (is : w.procs p = some (.collector c)) (able : c.Able w.disk a) : Permits x w (.act p a)
  | kill {p} (live : (w.procs p).isSome) : Permits x w (.kill p)

/-- Nobody has started, and nobody holds a lock. -/
structure Initial (w : World R) : Prop where
  procs : ∀ p, w.procs p = none
  locks : ∀ node, w.disk.locks node = none
  files : ∀ X name file, w.disk.file? X name = some file → file.node < w.disk.nodes
  dirs : ∀ X d, w.disk.dir? X = some d → d.node < w.disk.nodes

end World

end Khor.Update
