/-
Module: Khor.Runtime.Store
Purpose: The store of runtime images: its files, the calls its operations make on them, and the
  operations as programs of such calls (crates/runtime/src/store.rs, lease.rs).
Trusted boundary: blake3, serde_json and the file system
Main exports: Externals, Call, Machine, Machine.Does, collectLocked
-/
import Khor.Lib.Script

namespace Khor.Runtime

abbrev Bytes := List UInt8

/-- `valid_id`: sixty-four lower-case hexadecimal digits. -/
def validId (id : String) : Bool :=
  id.utf8ByteSize == 64 && id.toList.all fun c => c.isDigit || ('a' ≤ c && c ≤ 'f')

/-- The name of a generation: what `valid_id` lets through. -/
structure Id where
  text : String
  valid : validId text = true
deriving DecidableEq

/-- The programs that the store keeps. -/
inductive Role where
  | cli
  | desktopHost
  | agent
deriving DecidableEq

/-- `Contract`: the protocols that a program speaks. -/
structure Contract where
  terminal : UInt32
  gui : String
  node : String
  store : UInt32
  journal : UInt8
  agent : UInt32
deriving DecidableEq

/-- `Identity`, the manifest of a generation. -/
structure Identity where
  schema : UInt8
  role : Role
  version : String
  platform : String
  contract : Contract
  digest : String
  bytes : Nat
  embedded : List (String × String)
deriving DecidableEq

/-- What the store uses of other crates: the hash, the codec of manifests, and the name of the
platform it runs on. -/
structure Externals where
  blake3 : Bytes → Id
  toVec : Identity → Bytes
  fromSlice : Bytes → Option Identity
  platform : String

/-- `Identity::id`. -/
def Identity.id (x : Externals) (identity : Identity) : Id :=
  x.blake3 (x.toVec identity)

/-- What `hash_file` makes of a program. -/
def hashOf (x : Externals) (bytes : Bytes) : String × Nat :=
  ((x.blake3 bytes).text, bytes.length)

/-- The retention index: `roles` of a role that is not in the map is empty. -/
structure Index where
  roles : Role → List Id

namespace Index

def empty : Index := ⟨fun _ => []⟩

/-- `Index::retain`: the newest first, two of a role. -/
def retain (index : Index) (role : Role) (id : Id) : Index :=
  ⟨Function.update index.roles role ((id :: (index.roles role).filter fun entry => entry != id).take 2)⟩

/-- `Index::protected`. -/
def protectedIds (index : Index) : List Id :=
  index.roles .cli ++ index.roles .desktopHost ++ index.roles .agent

/-- What `Store::index` accepts. -/
def wellFormed (index : Index) : Bool :=
  (index.roles .cli).length ≤ 2 && (index.roles .desktopHost).length ≤ 2 &&
    (index.roles .agent).length ≤ 2

def Names (index : Index) (id : Id) : Prop := ∃ role, id ∈ index.roles role

/-- The protected names are those the index gives. -/
theorem mem_protectedIds {index : Index} {id : Id} : id ∈ index.protectedIds ↔ index.Names id := by
  unfold protectedIds Names
  constructor
  · intro mem
    rcases List.mem_append.1 mem with mem | mem
    · rcases List.mem_append.1 mem with mem | mem
      · exact ⟨.cli, mem⟩
      · exact ⟨.desktopHost, mem⟩
    · exact ⟨.agent, mem⟩
  · rintro ⟨role, mem⟩
    cases role <;> simp [mem]

@[simp] theorem roles_retain (index : Index) (role : Role) (id : Id) :
    (index.retain role id).roles = Function.update index.roles role
      ((id :: (index.roles role).filter fun entry => entry != id).take 2) := rfl

/-- A selection adds the selected generation and no other. -/
theorem names_retain {index : Index} {role : Role} {id other : Id}
    (named : (index.retain role id).Names other) : other = id ∨ index.Names other := by
  obtain ⟨r, mem⟩ := named
  rw [roles_retain] at mem
  by_cases same : r = role
  · subst same
    rw [Function.update_self] at mem
    rcases List.mem_cons.1 (List.mem_of_mem_take mem) with rfl | mem
    · exact .inl rfl
    · exact .inr ⟨r, (List.mem_filter.1 mem).1⟩
  · rw [Function.update_of_ne same] at mem
    exact .inr ⟨r, mem⟩

/-- No role comes to more than two. -/
theorem retain_length {index : Index} (role : Role) (id : Id) (short : ∀ r, (index.roles r).length ≤ 2)
    (r : Role) : ((index.retain role id).roles r).length ≤ 2 := by
  rw [roles_retain]
  by_cases same : r = role
  · subst same
    rw [Function.update_self]
    exact List.length_take_le 2 _
  · rw [Function.update_of_ne same]
    exact short r

/-- An index is accepted with at most two of a role. -/
theorem wellFormed_iff {index : Index} : index.wellFormed = true ↔ ∀ r, (index.roles r).length ≤ 2 := by
  unfold wellFormed
  simp only [Bool.and_eq_true, decide_eq_true_eq]
  constructor
  · rintro ⟨⟨one, two⟩, three⟩ r
    cases r
    · exact one
    · exact two
    · exact three
  · intro h
    exact ⟨⟨h .cli, h .desktopHost⟩, h .agent⟩

end Index

/-- The directories of the store: `.publish-<tail>`, `.gc-<id>` and `<id>`. -/
inductive Directory where
  | publish (tail : String)
  | gc (id : Id)
  | generation (id : Id)
deriving DecidableEq

/-- The entries of the store's root that its operations look at: directories, and the marker files
`.reservation-<id>`. -/
inductive Entry where
  | directory (d : Directory)
  | reservation (id : Id)

/-- The files of a generation. The program is called `role.executable()`. -/
inductive FileName where
  | transaction
  | manifest
  | lease
  | program (role : Role)
deriving DecidableEq

/-- An I/O error: `NotFound` and `AlreadyExists` are the kinds the code tells from others. -/
inductive Fault where
  | notFound
  | alreadyExists
  | other (text : String)

/-- A generation in use: where its program is, what its manifest says, and the open lease file. -/
structure Image where
  path : Directory
  identity : Identity
  inode : Nat

/-- The calls on the file system, each of them one step. -/
inductive Call where
  | readRoot
  | readDir (d : Directory)
  | present (d : Directory)
  | read (d : Directory) (f : FileName)
  | createDir (d : Directory)
  | removeDir (d : Directory)
  | rename (d d' : Directory)
  | create (d : Directory) (f : FileName)
  | write (d : Directory) (f : FileName) (bytes : Bytes)
  | removeFile (d : Directory) (f : FileName)
  | vacant (d : Directory)
  | take (d : Directory) (identity : Identity)
  | readIndex
  | renameIndex (index : Index)
  | readReservation (id : Id)
  | persistReservation (id : Id) (bytes : Bytes)
  | removeReservation (id : Id)

/-- What each call answers. -/
abbrev Reply : Call → Type
  | .readRoot => List Entry
  | .readDir _ => List FileName
  | .present _ => Bool
  | .read _ _ => Bytes
  | .vacant _ => Bool
  | .take _ _ => Image
  | .readIndex => Index
  | .readReservation _ => Bytes
  | _ => Unit

/-- An operation of the store, call by call. -/
abbrev Op (α : Type) := Script Call Reply Fault α

/-- A file: its bytes and its inode. -/
structure File where
  bytes : Bytes
  inode : Nat

abbrev Dir := FileName → Option File

def Dir.empty : Dir := fun _ => none

abbrev Pid := Nat

/-- What the processes share: the files of the store, and the lease files that processes hold open
with a shared lock on them. -/
structure Machine where
  index : Option Index
  reservations : Id → Option Bytes
  dirs : Directory → Option Dir
  inodes : Nat
  leases : List (Pid × Image)

namespace Machine

/-- No store yet. -/
def init : Machine := ⟨none, fun _ => none, fun _ => none, 0, []⟩

def file (s : Machine) (d : Directory) (f : FileName) : Option File :=
  (s.dirs d).bind fun dir => dir f

def Has (s : Machine) : Entry → Prop
  | .directory d => (s.dirs d).isSome
  | .reservation id => (s.reservations id).isSome

/-- The exclusive lock on a lease file is granted: no process has it open with the shared lock. -/
def vacant (s : Machine) (inode : Nat) : Bool :=
  s.leases.all fun lease => lease.2.inode != inode

/-- A directory comes, changes or goes. -/
def setDir (s : Machine) (d : Directory) (dir : Option Dir) : Machine :=
  { s with dirs := Function.update s.dirs d dir }

/-- What a call of process `p` is answered, and what it makes of the machine. A listing comes in any
order. -/
def Does (p : Pid) : (c : Call) → Machine → Except Fault (Reply c) → Machine → Prop
  | .readRoot, s, r, t => t = s ∧ ∃ l : List Entry, r = .ok l ∧ l.Nodup ∧ ∀ e, e ∈ l ↔ s.Has e
  | .readDir d, s, r, t =>
      t = s ∧ match s.dirs d with
        | none => r = .error .notFound
        | some dir => ∃ l : List FileName, r = .ok l ∧ l.Nodup ∧ ∀ f, f ∈ l ↔ (dir f).isSome
  | .present d, s, r, t => t = s ∧ r = .ok (s.dirs d).isSome
  | .read d f, s, r, t =>
      t = s ∧ r = match s.file d f with
        | none => .error .notFound
        | some file => .ok file.bytes
  | .createDir d, s, r, t =>
      match s.dirs d with
      | some _ => r = .error .alreadyExists ∧ t = s
      | none => r = .ok () ∧ t = s.setDir d (some Dir.empty)
  | .removeDir d, s, r, t =>
      match s.dirs d with
      | none => r = .error .notFound ∧ t = s
      | some dir =>
          (dir = Dir.empty ∧ r = .ok () ∧ t = s.setDir d none) ∨
            (dir ≠ Dir.empty ∧ r = .error (.other "directory not empty") ∧ t = s)
  | .rename d d', s, r, t =>
      match s.dirs d with
      | none => r = .error .notFound ∧ t = s
      | some dir =>
          ((s.dirs d' = none ∨ s.dirs d' = some Dir.empty) ∧ r = .ok () ∧
            t = (s.setDir d none).setDir d' (some dir)) ∨
          ((∃ old, s.dirs d' = some old ∧ old ≠ Dir.empty) ∧ r = .error (.other "directory not empty") ∧ t = s)
  | .create d f, s, r, t =>
      match s.dirs d with
      | none => r = .error .notFound ∧ t = s
      | some dir =>
          match dir f with
          | some _ => r = .error .alreadyExists ∧ t = s
          | none => r = .ok () ∧ t =
              { s.setDir d (some (Function.update dir f (some ⟨[], s.inodes⟩))) with
                  inodes := s.inodes + 1 }
  | .write d f bytes, s, r, t =>
      match s.dirs d with
      | none => r = .error .notFound ∧ t = s
      | some dir =>
          match dir f with
          | none => r = .error .notFound ∧ t = s
          | some file =>
              r = .ok () ∧ t = s.setDir d (some (Function.update dir f (some ⟨bytes, file.inode⟩)))
  | .removeFile d f, s, r, t =>
      match s.dirs d with
      | none => r = .error .notFound ∧ t = s
      | some dir =>
          match dir f with
          | none => r = .error .notFound ∧ t = s
          | some _ => r = .ok () ∧ t = s.setDir d (some (Function.update dir f none))
  | .vacant d, s, r, t =>
      t = s ∧ r = match s.file d .lease with
        | none => .error .notFound
        | some file => .ok (s.vacant file.inode)
  | .take d identity, s, r, t =>
      match s.file d .lease with
      | none => r = .error .notFound ∧ t = s
      | some file =>
          r = .ok ⟨d, identity, file.inode⟩ ∧
            t = { s with leases := (p, ⟨d, identity, file.inode⟩) :: s.leases }
  | .readIndex, s, r, t =>
      t = s ∧ r = match s.index with
        | none => .error .notFound
        | some index => .ok index
  | .renameIndex index, s, r, t => r = .ok () ∧ t = { s with index := some index }
  | .readReservation id, s, r, t =>
      t = s ∧ r = match s.reservations id with
        | none => .error .notFound
        | some bytes => .ok bytes
  | .persistReservation id bytes, s, r, t =>
      match s.reservations id with
      | some _ => r = .error .alreadyExists ∧ t = s
      | none =>
          r = .ok () ∧ t = { s with reservations := Function.update s.reservations id (some bytes) }
  | .removeReservation id, s, r, t =>
      match s.reservations id with
      | none => r = .error .notFound ∧ t = s
      | some _ => r = .ok () ∧ t = { s with reservations := Function.update s.reservations id none }

section Inversion

variable {p : Pid} {s t : Machine} {d d' : Directory} {f : FileName}

variable {r : Except Fault Unit}

/-- A directory is made where there is none. -/
theorem does_createDir (h : s.Does p (.createDir d) r t) :
    (s.dirs d = none ∧ r = .ok () ∧ t = s.setDir d (some Dir.empty)) ∨
      ((∃ e, r = .error e) ∧ t = s) := by
  simp only [Does] at h
  split at h
  · exact .inr ⟨⟨_, h.1⟩, h.2⟩
  · exact .inl ⟨‹_›, h⟩

/-- Only an empty directory is removed. -/
theorem does_removeDir (h : s.Does p (.removeDir d) r t) :
    (s.dirs d = some Dir.empty ∧ r = .ok () ∧ t = s.setDir d none) ∨
      ((∃ e, r = .error e) ∧ s.dirs d ≠ some Dir.empty ∧ t = s) := by
  simp only [Does] at h
  split at h
  · next none_ => exact .inr ⟨⟨_, h.1⟩, by simp [none_], h.2⟩
  · next dir at_ =>
    rcases h with ⟨rfl, h⟩ | ⟨ne, r_eq, same⟩
    · exact .inl ⟨at_, h⟩
    · exact .inr ⟨⟨_, r_eq⟩, by simpa [at_] using ne, same⟩

/-- A rename takes a free name or that of an empty directory. -/
theorem does_rename (h : s.Does p (.rename d d') r t) :
    (∃ dir, s.dirs d = some dir ∧ (s.dirs d' = none ∨ s.dirs d' = some Dir.empty) ∧ r = .ok () ∧
        t = (s.setDir d none).setDir d' (some dir)) ∨
      ((∃ e, r = .error e) ∧ t = s) := by
  simp only [Does] at h
  split at h
  · exact .inr ⟨⟨_, h.1⟩, h.2⟩
  · next dir at_ =>
    rcases h with ⟨free, h⟩ | ⟨_, r_eq, same⟩
    · exact .inl ⟨dir, at_, free, h⟩
    · exact .inr ⟨⟨_, r_eq⟩, same⟩

/-- A new file has an inode of its own. -/
theorem does_create (h : s.Does p (.create d f) r t) : (∃ dir, s.dirs d = some dir ∧ dir f = none ∧ r = .ok () ∧
        t = { s.setDir d (some (Function.update dir f (some ⟨[], s.inodes⟩))) with
          inodes := s.inodes + 1 }) ∨
      ((∃ e, r = .error e) ∧ t = s) := by
  simp only [Does] at h
  split at h
  · exact .inr ⟨⟨_, h.1⟩, h.2⟩
  · next dir at_ =>
    split at h
    · exact .inr ⟨⟨_, h.1⟩, h.2⟩
    · next free => exact .inl ⟨dir, at_, free, h⟩

theorem does_write {bytes : Bytes} (h : s.Does p (.write d f bytes) r t) :
    (∃ dir file, s.dirs d = some dir ∧ dir f = some file ∧ r = .ok () ∧
        t = s.setDir d (some (Function.update dir f (some ⟨bytes, file.inode⟩)))) ∨
      ((∃ e, r = .error e) ∧ t = s) := by
  simp only [Does] at h
  split at h
  · exact .inr ⟨⟨_, h.1⟩, h.2⟩
  · next dir at_ =>
    split at h
    · exact .inr ⟨⟨_, h.1⟩, h.2⟩
    · next file there => exact .inl ⟨dir, file, at_, there, h⟩

theorem does_removeFile (h : s.Does p (.removeFile d f) r t) :
    (∃ dir file, s.dirs d = some dir ∧ dir f = some file ∧ r = .ok () ∧
        t = s.setDir d (some (Function.update dir f none))) ∨
      (r = .error .notFound ∧ s.file d f = none ∧ t = s) := by
  simp only [Does] at h
  split at h
  · next none_ => exact .inr ⟨h.1, by simp [file, none_], h.2⟩
  · next dir at_ =>
    split at h
    · next gone => exact .inr ⟨h.1, by simp [file, at_, gone], h.2⟩
    · next file there => exact .inl ⟨dir, file, at_, there, h⟩

/-- A lease is taken of the file that is there. -/
theorem does_take {identity : Identity} {r : Except Fault Image} (h : s.Does p (.take d identity) r t) :
    (∃ file, s.file d .lease = some file ∧ r = .ok ⟨d, identity, file.inode⟩ ∧
        t = { s with leases := (p, ⟨d, identity, file.inode⟩) :: s.leases }) ∨
      ((∃ e, r = .error e) ∧ t = s) := by
  simp only [Does] at h
  split at h
  · exact .inr ⟨⟨_, h.1⟩, h.2⟩
  · next file at_ => exact .inl ⟨file, at_, h⟩

theorem does_persistReservation {id : Id} {bytes : Bytes} (h : s.Does p (.persistReservation id bytes) r t) :
    (r = .ok () ∧ t = { s with reservations := Function.update s.reservations id (some bytes) }) ∨
      ((∃ e, r = .error e) ∧ t = s) := by
  simp only [Does] at h
  split at h
  · exact .inr ⟨⟨_, h.1⟩, h.2⟩
  · exact .inl h

theorem does_removeReservation {id : Id} (h : s.Does p (.removeReservation id) r t) :
    (r = .ok () ∧ t = { s with reservations := Function.update s.reservations id none }) ∨
      ((∃ e, r = .error e) ∧ t = s) := by
  simp only [Does] at h
  split at h
  · exact .inr ⟨⟨_, h.1⟩, h.2⟩
  · exact .inl h

end Inversion

/-- A call of one of the given kinds can also fail for a reason of the file system's own, and change
nothing. -/
def MayDo (failing : Call → Prop) (p : Pid) (c : Call) (s : Machine) (r : Except Fault (Reply c))
    (t : Machine) : Prop :=
  s.Does p c r t ∨ (failing c ∧ t = s ∧ ∃ text, r = .error (.other text))

/-- Between two calls of a process the others may duplicate lease files they have open and close them,
by exiting too; everything else takes the catalog lock. -/
def Others (s t : Machine) : Prop :=
  ∃ leases, t = { s with leases := leases } ∧ ∀ l ∈ leases, ∃ l' ∈ s.leases, l'.2 = l.2

theorem Others.refl (s : Machine) : s.Others s :=
  ⟨s.leases, rfl, fun l mem => ⟨l, mem, rfl⟩⟩

/-- What others do in two goes they could do in one. -/
theorem Others.trans {s t u : Machine} (one : s.Others t) (two : t.Others u) : s.Others u := by
  obtain ⟨ls, rfl, from_s⟩ := one
  obtain ⟨ls', rfl, from_t⟩ := two
  refine ⟨ls', rfl, fun l mem => ?_⟩
  obtain ⟨l', mem', same⟩ := from_t l mem
  obtain ⟨l'', mem'', same'⟩ := from_s l' mem'
  exact ⟨l'', mem'', same'.trans same⟩

end Machine

def manifestLimit : Nat := 16 * 1024

def reservationMark : Bytes := "khor-runtime-reservation-v1\n".toUTF8.data.toList

open Script (require fail)

/-- One call. -/
abbrev sys (c : Call) : Op (Reply c) := Script.sys c

def other (text : String) : Fault := .other text

/-- `read_bounded`. -/
def readBounded (d : Directory) (f : FileName) (limit : Nat) : Op Bytes := do
  let bytes ← sys (.read d f)
  require (bytes.length ≤ limit) (other "runtime metadata exceeds its byte limit")
  pure bytes

section Operations

variable (x : Externals)

/-- `serde_json::from_slice` of a manifest. -/
def parse (bytes : Bytes) : Op Identity :=
  match x.fromSlice bytes with
  | some identity => pure identity
  | none => fail (other "invalid json")

/-- `hash_file`. -/
def hashFile (d : Directory) (f : FileName) : Op (String × Nat) := do
  let bytes ← sys (.read d f)
  pure (hashOf x bytes)

/-- `identity_at`, of the directory of a generation. -/
def identityAt (id : Id) : Op Identity := do
  let bytes ← readBounded (.generation id) .manifest manifestLimit
  let identity ← parse x bytes
  require (identity.schema == 1 && identity.platform == x.platform && identity.id x == id)
    (other "runtime manifest identity mismatch")
  let files ← sys (.readDir (.generation id))
  require (files.all fun f => [FileName.program identity.role, .manifest, .lease].contains f)
    (other "runtime generation contains unknown resources")
  require (files.length == 3) (other "runtime generation is incomplete")
  pure identity

/-- `check_files`. -/
def checkFiles (d : Directory) (allowed : List FileName) : Op Unit := do
  let files ← sys (.readDir d)
  require (files.all fun f => allowed.contains f)
    (other "runtime transaction contains unknown files")

/-- `fs::remove_file` of a file that may be gone already. -/
def removeIfThere (d : Directory) (f : FileName) : Op Unit :=
  (sys (.removeFile d f)).attempt fun
    | .error .notFound => pure ()
    | result => .ended result

/-- The metadata that a clean-up trusts: the transaction, and the manifest where there is none. -/
def publicationMetadata (d : Directory) : Op Bytes :=
  (readBounded d .transaction manifestLimit).attempt fun
    | .ok bytes => pure bytes
    | .error .notFound => readBounded d .manifest manifestLimit
    | .error error => fail error

/-- `cleanup_staging`. -/
def cleanupStaging (d : Directory) : Op Unit := do
  let files ← sys (.readDir d)
  if files.isEmpty then
    sys (.removeDir d)
  else do
    let bytes ← publicationMetadata d
    let identity ← parse x bytes
    require (identity.schema == 1) (other "unknown runtime publication")
    checkFiles d [.program identity.role, .lease, .manifest, .transaction]
    let files ← sys (.readDir d)
    (files.filter fun f => f != .transaction).forM fun f => sys (.removeFile d f)
    removeIfThere d .transaction
    sys (.removeDir d)

/-- The program of a tombstone is the one its manifest names, if it is still there. -/
def checkProgram (d : Directory) (identity : Identity) : Op Unit :=
  (hashFile x d (.program identity.role)).attempt fun
    | .error .notFound => pure ()
    | .error error => fail error
    | .ok observed =>
        require (observed == (identity.digest, identity.bytes))
          (other "runtime tombstone program changed")

/-- Nobody has the lease file of a tombstone open, if it is still there. -/
def checkVacant (d : Directory) : Op Unit :=
  (sys (.vacant d)).attempt fun
    | .error .notFound => pure ()
    | .error error => fail error
    | .ok vacant => require vacant (other "runtime tombstone is occupied")

/-- `finish_collection`. -/
def finishCollection (d : Directory) (expected : Id) : Op Unit := do
  let files ← sys (.readDir d)
  if files.isEmpty then
    sys (.removeDir d)
  else do
    let bytes ← readBounded d .manifest manifestLimit
    let identity ← parse x bytes
    require (identity.schema == 1 && identity.id x == expected) (other "unknown runtime tombstone")
    checkFiles d [.program identity.role, .lease, .manifest]
    checkProgram x d identity
    checkVacant d
    -- Catalog is held. Manifest is removed last so interrupted collection can resume.
    removeIfThere d (.program identity.role)
    removeIfThere d .lease
    removeIfThere d .manifest
    sys (.removeDir d)

/-- `Store::index`. -/
def index : Op Index :=
  (sys .readIndex).attempt fun
    | .ok index => do
        require index.wellFormed (other "invalid runtime retention index")
        pure index
    | .error .notFound => pure .empty
    | .error error => fail error

/-- One entry of the listing that `Store::protected` goes through. -/
def protectEntry (found : Nat × List Id) : Entry → Op (Nat × List Id)
  | .directory _ => pure found
  | .reservation id => do
      require (found.1 + 1 ≤ 256) (other "unknown runtime reservation was retained")
      let bytes ← sys (.readReservation id)
      require (bytes == reservationMark) (other "unknown runtime reservation was retained")
      pure (found.1 + 1, id :: found.2)

/-- `Store::protected`. -/
def protectedOf (index : Index) : Op (List Id) := do
  let entries ← sys .readRoot
  let found ← entries.foldlM protectEntry (0, index.protectedIds)
  pure found.2

/-- `Collection`: what a collection removed, found in use and could not tell. -/
structure Collection where
  removed : List Directory
  occupied : List Directory
  unknown : List Directory

namespace Collection

def empty : Collection := ⟨[], [], []⟩

def addRemoved (c : Collection) (d : Directory) : Collection := { c with removed := c.removed ++ [d] }

def addOccupied (c : Collection) (d : Directory) : Collection :=
  { c with occupied := c.occupied ++ [d] }

def addUnknown (c : Collection) (d : Directory) : Collection := { c with unknown := c.unknown ++ [d] }

end Collection

/-- Set a vacant generation aside and delete it. -/
def removeGeneration (id : Id) : Op Unit := do
  sys (.rename (.generation id) (.gc id))
  finishCollection x (.gc id) id

/-- A generation nothing protects and no lease occupies goes, if its program is still what its manifest
says. -/
def collectVacant (result : Collection) (id : Id) (identity : Identity) : Op Collection :=
  (hashFile x (.generation id) (.program identity.role)).attempt fun
    | .ok observed =>
        if observed = (identity.digest, identity.bytes) then
          (removeGeneration x id).attempt fun
            | .ok _ => pure (result.addRemoved (.generation id))
            | .error _ => pure (result.addUnknown (.generation id))
        else pure (result.addUnknown (.generation id))
    | .error _ => pure (result.addUnknown (.generation id))

/-- `collect_locked` at the directory of a generation. -/
def collectGeneration (protectedIds : List Id) (result : Collection) (id : Id) : Op Collection :=
  (identityAt x id).attempt fun
    | .error _ => pure (result.addUnknown (.generation id))
    | .ok identity =>
        if id ∈ protectedIds then pure result
        else (sys (.vacant (.generation id))).attempt fun
          | .ok true => collectVacant x result id identity
          | .ok false => pure (result.addOccupied (.generation id))
          | .error _ => pure (result.addUnknown (.generation id))

/-- `collect_locked` at one entry of the listing. -/
def collectEntry (protectedIds : List Id) (result : Collection) : Entry → Op Collection
  | .directory (.publish tail) =>
      (cleanupStaging x (.publish tail)).attempt fun
        | .ok _ => pure result
        | .error _ => pure (result.addUnknown (.publish tail))
  | .directory (.gc id) =>
      (finishCollection x (.gc id) id).attempt fun
        | .ok _ => pure result
        | .error _ => pure (result.addUnknown (.gc id))
  | .directory (.generation id) => collectGeneration x protectedIds result id
  | .reservation _ => pure result

/-- `collect_locked`. -/
def collectLocked (index : Index) : Op Collection := do
  let protectedIds ← protectedOf index
  let entries ← sys .readRoot
  entries.foldlM (collectEntry x protectedIds) .empty

/-- `hold_locked`, of a name that passed `valid_id`. -/
def holdId (id : Id) : Op Image := do
  let identity ← identityAt x id
  let observed ← hashFile x (.generation id) (.program identity.role)
  require (observed == (identity.digest, identity.bytes))
    (other "runtime program does not match its manifest")
  sys (.take (.generation id) identity)

/-- `hold_locked`. -/
def holdLocked (id : String) : Op Image :=
  if valid : validId id = true then holdId x ⟨id, valid⟩
  else fail (other "invalid runtime digest")

/-- `write_new`: the file is created, then written. -/
def writeNew (d : Directory) (f : FileName) (bytes : Bytes) : Op Unit := do
  sys (.create d f)
  sys (.write d f bytes)

/-- The closure `staged`: fill the staging directory and rename it into place. `copied` is what the
source held when it was copied. -/
def staged (d : Directory) (identity : Identity) (copied : Bytes) : Op Unit := do
  writeNew d .transaction (x.toVec identity)
  writeNew d (.program identity.role) copied
  let observed ← hashFile x d (.program identity.role)
  require (observed == (identity.digest, identity.bytes))
    (other "runtime source changed during publication")
  writeNew d .manifest (x.toVec identity)
  writeNew d .lease []
  sys (.removeFile d .transaction)
  sys (.rename d (.generation (identity.id x)))

/-- `fs::remove_dir_all` of a staging directory. -/
def removeDirAll (d : Directory) : Op Unit := do
  let files ← sys (.readDir d)
  files.forM fun f => sys (.removeFile d f)
  sys (.removeDir d)

/-- What a publication is asked for: who publishes what, what the source held when it was hashed and
when it was copied, the random name of the staging directory, and whether the disk has room. -/
structure Publication where
  role : Role
  version : String
  contract : Contract
  embedded : List (String × String)
  source : Bytes
  copied : Bytes
  random : String
  room : Bool

def Publication.identity (r : Publication) : Identity where
  schema := 1
  role := r.role
  version := r.version
  platform := x.platform
  contract := r.contract
  digest := (x.blake3 r.source).text
  bytes := r.source.length
  embedded := r.embedded

/-- The generation is not there yet: make room, stage it, and take a failed staging back. -/
def publishNew (r : Publication) (index : Index) : Op Unit := do
  let _ ← collectLocked x index
  require r.room (other "runtime cache is full; occupied or unknown versions were retained")
  sys (.createDir (.publish r.random))
  (staged x (.publish r.random) (r.identity x) r.copied).attempt fun
    | .ok _ => pure ()
    | .error error => (removeDirAll (.publish r.random)).attempt fun _ => fail error

/-- `stage_checked` while it holds the catalog; `check` runs after it, on the image it returns. -/
def stageLocked (r : Publication) : Op Image := do
  let identity := r.identity x
  let manifest := x.toVec identity
  require (manifest.length ≤ manifestLimit && r.version != "") (other "invalid runtime identity")
  let index ← index
  let published ← sys (.present (.generation (identity.id x)))
  if published then holdId x (identity.id x)
  else do
    publishNew x r index
    holdId x (identity.id x)

/-- `select`: the image becomes the newest of its role. -/
def select (image : Image) : Op Unit := do
  let id := image.identity.id x
  require (image.path == .generation id) (other "runtime selection belongs to another store")
  let index ← index
  let index := index.retain image.identity.role id
  sys (.renameIndex index)
  let _ ← collectLocked x index
  pure ()

/-- `reserve`. -/
def reserve (image : Image) : Op Unit := do
  let id := image.identity.id x
  require (image.path == .generation id) (other "runtime reservation belongs to another store")
  (sys (.persistReservation id reservationMark)).attempt fun
    | .error .alreadyExists => do
        let bytes ← sys (.readReservation id)
        require (bytes == reservationMark) (other "unknown runtime reservation was retained")
    | result => .ended result

def releaseReservation (id : String) : Op Unit :=
  if valid : validId id = true then
    (sys (.readReservation ⟨id, valid⟩)).attempt fun
      | .ok bytes => do
          require (bytes == reservationMark) (other "unknown runtime reservation was retained")
          sys (.removeReservation ⟨id, valid⟩)
      | .error .notFound => pure ()
      | .error error => fail error
  else fail (other "invalid runtime reservation identity")

/-- `collect`, under the store's lock. -/
def collect : Op Collection := do
  let index ← index
  collectLocked x index

end Operations

end Khor.Runtime
