/-
Module: Khor.Runtime.Recovery
Purpose: What a killed publication or collection leaves behind, and that the next collection takes it
  away.
Trusted boundary: the catalog lock is exclusive; a manifest reads back as written, and no empty file is one
Main exports: Staging, Tame, finishCollection_finishes, collectLocked_finishes, interrupted_work_is_finished
-/
import Khor.Runtime.Retention

namespace Khor.Runtime

open Script

/-- What is relied on of the manifests' codec. -/
structure Externals.Lawful (x : Externals) : Prop where
  roundTrip : ∀ identity, (x.toVec identity).length ≤ manifestLimit →
    x.fromSlice (x.toVec identity) = some identity
  empty : x.fromSlice [] = none

theorem Directory.gc_ne_generation (i j : Id) : Directory.gc i ≠ .generation j := nofun

theorem Directory.publish_ne_generation (tail : String) (id : Id) :
    Directory.publish tail ≠ .generation id := nofun

theorem Directory.publish_ne_gc (tail : String) (id : Id) : Directory.publish tail ≠ .gc id := nofun

/-- Nothing in the one that is not in the other. -/
def Dir.Within (dir' dir : Dir) : Prop := ∀ f, dir' f = none ∨ dir' f = dir f

theorem Dir.within_remove (dir : Dir) (f : FileName) : Dir.Within (Function.update dir f none) dir := by
  intro g
  by_cases same : g = f
  · exact .inl (by rw [same, Function.update_self])
  · exact .inr (Function.update_of_ne same none dir)

variable {dir' dir : Dir} {f : FileName} {x : Externals} {identity : Identity} {id : Id} {w : World}

theorem Dir.Within.some (h : Dir.Within dir' dir) {file : File} (there : dir' f = some file) : dir f = some file := by
  rcases h f with gone | same
  · rw [there] at gone
    cases gone
  · rw [← same, there]

/-- Nothing is left when the program, the lease and the manifest are gone. -/
theorem Dir.removed_all {role : Role}
    (only : ∀ f file, dir f = some file → f ∈ [FileName.program role, .lease, .manifest]) :
    Function.update (Function.update (Function.update dir (.program role) none) .lease none)
      .manifest none = Dir.empty := by
  funext f
  simp only [Function.update_apply]
  split
  · rfl
  · next manifest =>
    split
    · rfl
    · next lease =>
      split
      · rfl
      · next program =>
        cases left : dir f with
        | none => rfl
        | some file => simpa [manifest, lease, program] using only f file left

/-- A staging directory of the publication of a generation: no foreign file, and metadata that is either
just created or written. -/
structure StagingOf (x : Externals) (identity : Identity) (dir : Dir) : Prop where
  schema : identity.schema = 1
  small : (x.toVec identity).length ≤ manifestLimit
  files : ∀ f file, dir f = some file →
    f ∈ [FileName.program identity.role, .lease, .manifest, .transaction]
  transaction : ∀ file, dir .transaction = some file → file.bytes = [] ∨ file.bytes = x.toVec identity
  manifest : ∀ file, dir .manifest = some file → file.bytes = [] ∨ file.bytes = x.toVec identity

def Staging (x : Externals) (dir : Dir) : Prop := ∃ identity, StagingOf x identity dir

/-- The metadata that a clean-up trusts: the transaction, or the manifest where there is no
transaction. -/
def Dir.metadata (dir : Dir) : Option File := (dir .transaction).or (dir .manifest)

/-- Files, and no metadata that can be read. -/
def Orphaned (x : Externals) (dir : Dir) : Prop :=
  dir ≠ Dir.empty ∧ ∀ file, dir.metadata = some file → x.fromSlice file.bytes = none

/-- The directory of a generation that is being collected: empty, or still with the manifest. -/
def Tomb (x : Externals) (id : Id) (dir : Dir) : Prop :=
  dir = Dir.empty ∨ ∃ identity file, dir .manifest = some file ∧
    x.fromSlice file.bytes = some identity ∧ file.bytes.length ≤ manifestLimit ∧
    identity.schema = 1 ∧ identity.id x = id ∧
    (∀ f file, dir f = some file → f ∈ [FileName.program identity.role, .lease, .manifest]) ∧
    ∀ file, dir (.program identity.role) = some file →
      hashOf x file.bytes = (identity.digest, identity.bytes)

theorem StagingOf.within (within : Dir.Within dir' dir) (h : StagingOf x identity dir) :
    StagingOf x identity dir' where
  schema := h.schema
  small := h.small
  files f file there := h.files f file (within.some there)
  transaction file there := h.transaction file (within.some there)
  manifest file there := h.manifest file (within.some there)

theorem Staging.within (within : Dir.Within dir' dir) (h : Staging x dir) : Staging x dir' := by
  obtain ⟨identity, staging⟩ := h
  exact ⟨identity, staging.within within⟩

/-- Until the manifest goes, what is left is a tomb. -/
theorem Tomb.remove (h : Tomb x id dir) (other : f ≠ .manifest) : Tomb x id (Function.update dir f none) := by
  rcases h with rfl | ⟨identity, file, there, parsed, small, schema, named, files, program⟩
  · left
    funext g
    rcases Dir.within_remove Dir.empty f g with gone | same
    · exact gone
    · exact same
  · have within := Dir.within_remove dir f
    refine .inr ⟨identity, file, ?_, parsed, small, schema, named,
      fun g file there => files g file (within.some there), fun file there => program file (within.some there)⟩
    rw [Function.update_of_ne (Ne.symm other)]
    exact there

/-- Metadata that can be read is that of the publication. -/
theorem Staging.readable (lawful : x.Lawful) (h : Staging x dir) (live : ¬ Orphaned x dir) (filled : dir ≠ Dir.empty) :
    ∃ identity file, StagingOf x identity dir ∧ dir.metadata = some file ∧
      file.bytes = x.toVec identity := by
  obtain ⟨identity, staging⟩ := h
  have read : ∃ file, dir.metadata = some file ∧ x.fromSlice file.bytes ≠ none := by
    by_contra none_
    refine live ⟨filled, fun file at_ => ?_⟩
    by_contra parsed
    exact none_ ⟨file, at_, parsed⟩
  obtain ⟨file, at_, parsed⟩ := read
  have content : file.bytes = [] ∨ file.bytes = x.toVec identity := by
    rcases Option.or_eq_some_iff.1 at_ with there | ⟨_, there⟩
    · exact staging.transaction file there
    · exact staging.manifest file there
  refine ⟨identity, file, staging, at_, content.resolve_left fun nil => parsed ?_⟩
  rw [nil]
  exact lawful.empty

/-- What each kind of directory may hold. -/
def Fits (x : Externals) : Directory → Dir → Prop
  | .publish _, dir => Staging x dir
  | .gc id, dir => Tomb x id dir
  | .generation _, _ => True

/-- Every file has an inode of its own. -/
structure Inodes (s : Machine) : Prop where
  below : ∀ d f file, s.file d f = some file → file.inode < s.inodes
  apart : ∀ d f file d' f' file', s.file d f = some file → s.file d' f' = some file' →
    file.inode = file'.inode → d = d' ∧ f = f'

/-- What holds of the directories of a store at every moment. -/
structure Tame (x : Externals) (s : Machine) : Prop where
  inodes : Inodes s
  fits : ∀ d dir, s.dirs d = some dir → Fits x d dir
  exclusive : ∀ id, s.dirs (.gc id) = none ∨ s.dirs (.generation id) = none

/-- No staging directory is left without metadata. -/
def NoOrphans (x : Externals) (s : Machine) : Prop :=
  ∀ tail dir, s.dirs (.publish tail) = some dir → ¬ Orphaned x dir

section Directories

variable {x : Externals} {s t u : Machine} {d : Directory} {dir dir' : Dir}

/-- Directories can be renamed and files can go: files that stay keep their inodes. -/
theorem Inodes.moved (h : Inodes s) (origin : Directory → Directory)
    (kept : ∀ d f file, t.file d f = some file →
      ∃ file', s.file (origin d) f = some file' ∧ file'.inode = file.inode)
    (inj : ∀ d d', (t.dirs d).isSome → (t.dirs d').isSome → origin d = origin d' → d = d')
    (grown : s.inodes ≤ t.inodes) : Inodes t where
  below d f file there := by
    obtain ⟨file', there', inode⟩ := kept d f file there
    have := h.below _ _ _ there'
    omega
  apart d f file d' f' file' there there' same := by
    obtain ⟨one, one_there, one_inode⟩ := kept d f file there
    obtain ⟨two, two_there, two_inode⟩ := kept d' f' file' there'
    obtain ⟨dirs, files⟩ := h.apart _ _ _ _ _ _ one_there two_there
      (one_inode.trans (same.trans two_inode.symm))
    refine ⟨inj d d' ?_ ?_ dirs, files⟩
    · cases at_ : t.dirs d with
      | none => simp [Machine.file, at_] at there
      | some _ => rfl
    · cases at_ : t.dirs d' with
      | none => simp [Machine.file, at_] at there'
      | some _ => rfl

/-- One directory is replaced or removed, and nothing else changes but leases and inode numbers. -/
structure Machine.Sets (d : Directory) (dir : Option Dir) (s t : Machine) : Prop where
  dirs : t.dirs = Function.update s.dirs d dir
  index : t.index = s.index
  reservations : t.reservations = s.reservations

namespace Machine.Sets

theorem self {dir : Option Dir} (h : s.Sets d dir t) : t.dirs d = dir := by
  rw [h.dirs, Function.update_self]

theorem other {dir : Option Dir} (h : s.Sets d dir t) {d' : Directory} (ne : d' ≠ d) :
    t.dirs d' = s.dirs d' := by
  rw [h.dirs, Function.update_of_ne ne]

theorem trans {a b : Option Dir} (one : s.Sets d a t) (two : t.Sets d b u) : s.Sets d b u where
  dirs := by rw [two.dirs, one.dirs, Function.update_idem]
  index := two.index.trans one.index
  reservations := two.reservations.trans one.reservations

theorem after {a : Option Dir} (o : s.Others t) (h : t.Sets d a u) : s.Sets d a u where
  dirs := by rw [h.dirs, o.dirs]
  index := h.index.trans o.index
  reservations := h.reservations.trans o.reservations

theorem before {a : Option Dir} (h : s.Sets d a t) (o : t.Others u) : s.Sets d a u where
  dirs := o.dirs.trans h.dirs
  index := o.index.trans h.index
  reservations := o.reservations.trans h.reservations

theorem of_setDir (s : Machine) (d : Directory) (dir : Option Dir) : s.Sets d dir (s.setDir d dir) :=
  ⟨rfl, rfl, rfl⟩

theorem file {dir : Option Dir} (h : s.Sets d dir t) {d' : Directory} (ne : d' ≠ d) (f : FileName) :
    t.file d' f = s.file d' f := by
  unfold Machine.file
  rw [h.other ne]

end Machine.Sets

theorem Tame.others (o : s.Others t) (h : Tame x s) : Tame x t where
  inodes := by
    refine h.inodes.moved id (fun d f file there => ⟨file, ?_, rfl⟩) (fun _ _ _ _ same => same)
      (Nat.le_of_eq o.inodes.symm)
    rw [o.file] at there
    exact there
  fits d dir at_ := h.fits d dir (o.dirs ▸ at_)
  exclusive id := by
    rw [o.dirs]
    exact h.exclusive id

/-- One directory goes, or changes what its files hold. -/
theorem Tame.changed {after : Option Dir} (h : Tame x s) (sets : s.Sets d after t) (inodes : s.inodes ≤ t.inodes)
    (absent : s.dirs d = none → after = none) (fits : ∀ dir', after = some dir' → Fits x d dir')
    (kept : ∀ f file, after.bind (· f) = some file → ∃ file', s.file d f = some file' ∧ file'.inode = file.inode) :
    Tame x t where
  inodes := by
    refine h.inodes.moved id (fun d' f file there => ?_) (fun _ _ _ _ same => same) inodes
    by_cases same : d' = d
    · subst same
      exact kept f file (by simpa [Machine.file, sets.self] using there)
    · exact ⟨file, by rw [sets.file same] at there; exact there, rfl⟩
  fits d' dir'' at' := by
    by_cases same : d' = d
    · subst same
      exact fits dir'' (sets.self ▸ at')
    · exact h.fits d' dir'' (sets.other same ▸ at')
  exclusive id := by
    have still : ∀ d', s.dirs d' = none → t.dirs d' = none := by
      intro d' none_
      by_cases same : d' = d
      · subst same
        exact sets.self.trans (absent none_)
      · exact (sets.other same).trans none_
    exact (h.exclusive id).imp (still _) (still _)

theorem Tame.sets (h : Tame x s) (at_ : s.dirs d = some dir) (sets : s.Sets d (some dir') t)
    (inodes : s.inodes ≤ t.inodes) (fits : Fits x d dir')
    (kept : ∀ f file, dir' f = some file → ∃ file', dir f = some file' ∧ file'.inode = file.inode) :
    Tame x t := by
  refine h.changed sets inodes (fun none_ => ?_) (fun _ same => Option.some.inj same ▸ fits) fun f file at' => ?_
  · cases at_.symm.trans none_
  · obtain ⟨file', was, inode⟩ := kept f file at'
    exact ⟨file', by simpa [Machine.file, at_] using was, inode⟩

theorem Tame.removed (h : Tame x s) (sets : s.Sets d none t) (inodes : s.inodes ≤ t.inodes) : Tame x t :=
  h.changed sets inodes (fun _ => rfl) nofun nofun

/-- A file is created, with an inode nobody has. -/
theorem Inodes.created {f : FileName} {bytes : Bytes} (h : Inodes s) (at_ : s.dirs d = some dir)
    (sets : s.Sets d (some (Function.update dir f (some ⟨bytes, s.inodes⟩))) t)
    (inodes : t.inodes = s.inodes + 1) : Inodes t := by
  have old : ∀ d' f' file, t.file d' f' = some file →
      (d' = d ∧ f' = f ∧ file.inode = s.inodes) ∨ s.file d' f' = some file := by
    intro d' f' file there
    by_cases same : d' = d
    · subst same
      have found : Function.update dir f (some ⟨bytes, s.inodes⟩) f' = some file := by
        simpa [Machine.file, sets.self] using there
      by_cases eq : f' = f
      · subst eq
        rw [Function.update_self] at found
        cases found
        exact .inl ⟨rfl, rfl, rfl⟩
      · rw [Function.update_of_ne eq] at found
        exact .inr (by simpa [Machine.file, at_] using found)
    · exact .inr (by rw [sets.file same] at there; exact there)
  constructor
  · intro d' f' file there
    rcases old d' f' file there with ⟨_, _, new⟩ | there
    · omega
    · have := h.below _ _ _ there
      omega
  · intro d₁ f₁ file₁ d₂ f₂ file₂ one two same
    rcases old _ _ _ one with ⟨d_eq, f_eq, new⟩ | one <;>
      rcases old _ _ _ two with ⟨d_eq', f_eq', new'⟩ | two
    · exact ⟨d_eq.trans d_eq'.symm, f_eq.trans f_eq'.symm⟩
    · have := h.below _ _ _ two
      omega
    · have := h.below _ _ _ one
      omega
    · exact h.apart _ _ _ _ _ _ one two same

/-- What is done to a staging directory leaves the others as they are. -/
theorem Tame.published {tail : String} (h : Tame x s) (sets : s.Sets (.publish tail) (some dir) t)
    (inodes : Inodes t) (fits : Staging x dir) : Tame x t where
  inodes := inodes
  fits d' dir' at_ := by
    by_cases same : d' = .publish tail
    · subst same
      rw [sets.self] at at_
      cases at_
      exact fits
    · rw [sets.other same] at at_
      exact h.fits d' dir' at_
  exclusive id := by
    rw [sets.other (Directory.publish_ne_gc tail id).symm,
      sets.other (Directory.publish_ne_generation tail id).symm]
    exact h.exclusive id

/-- A directory is renamed. -/
theorem Tame.moves {a b : Directory} (h : Tame x s) (at_ : s.dirs a = some dir) (ne : a ≠ b)
    (gone : s.Sets a none u) (there : u.Sets b (some dir) t) (inodes : s.inodes ≤ t.inodes)
    (fits : Fits x b dir)
    (exclusive : ∀ id, t.dirs (.gc id) = none ∨ t.dirs (.generation id) = none) : Tame x t where
  inodes := by
    have a_gone : t.dirs a = none := (there.other ne).trans gone.self
    refine h.inodes.moved (fun d => if d = b then a else d) (fun d f file found => ?_)
      (fun d d' some_ some_' same => ?_) inodes
    · by_cases same : d = b
      · subst same
        refine ⟨file, ?_, rfl⟩
        rw [if_pos rfl]
        simpa [Machine.file, there.self, at_] using found
      · refine ⟨file, ?_, rfl⟩
        rw [if_neg same]
        have other : d ≠ a := by
          rintro rfl
          simp [Machine.file, a_gone] at found
        rw [there.file same, gone.file other] at found
        exact found
    · have other : ∀ d, (t.dirs d).isSome → d ≠ a := by
        rintro d filled rfl
        rw [a_gone] at filled
        cases filled
      split at same <;> split at same <;> simp_all
  fits d dir' found := by
    by_cases same : d = b
    · subst same
      rw [there.self] at found
      cases found
      exact fits
    · rw [there.other same] at found
      have other : d ≠ a := by
        rintro rfl
        rw [gone.self] at found
        cases found
      rw [gone.other other] at found
      exact h.fits d dir' found
  exclusive := exclusive

end Directories

/-- Calls that need room on the disk, and can fail for want of it. -/
def Call.Grows : Call → Prop
  | .createDir _ | .create _ _ | .write _ _ _ | .rename _ _ | .renameIndex _
  | .persistReservation _ _ => True
  | _ => False

/-- The terms on which leftovers are cleaned up: calls that need no room do not fail by themselves, and the
store is sound before and after each call. -/
def recovery (x : Externals) (F : Call → Prop) (p : Pid) : Terms Call Reply Fault Machine where
  does := fun c s r t => s.MayDo F p c r t ∧ Sound x s ∧ Sound x t
  others := Machine.Others
  own := fun _ _ => True
  rest := Tame x
  refl := Machine.Others.refl
  trans := Machine.Others.trans
  keeps := Tame.others

theorem onRecovery (x : Externals) (F : Call → Prop) (p : Pid) : OnStore F p (recovery x F p) where
  does h := h.1
  others h := h
  own _ := trivial

section Seeing

variable {x : Externals} {F : Call → Prop} {p : Pid} {s : Machine} {α β : Type}

/-- A program that changes nothing and returns this. -/
def Sees (τ : Terms Call Reply Fault Machine) (op : Op α) (a : α) (s : Machine) : Prop :=
  op.Holds τ (fun r t => s.Others t ∧ r = .ok a) s

variable {τ : Terms Call Reply Fault Machine} {d : Directory}

theorem Sees.returns (rest : τ.rest s) (a : α) : Sees τ (pure a) a s :=
  ⟨rest, .refl s, rfl⟩

theorem Sees.require (rest : τ.rest s) {b : Bool} (e : Fault) (yes : b = true) : Sees τ (require b e) () s := by
  subst yes
  exact ⟨rest, .refl s, rfl⟩

theorem Sees.andThen {op : Op α} {a : α} (h : Sees τ op a s) {f : α → Op β} {post : Except Fault β → Machine → Prop}
    (next : ∀ t, τ.rest t → s.Others t → (f a).Holds τ post t) : (op >>= f).Holds τ post s := by
  refine Holds.proceed (Q := fun b t => b = a ∧ s.Others t)
    (h.mono fun r t _ now => ⟨a, now.2, rfl, now.1⟩) fun b t rest now => ?_
  obtain ⟨rfl, o⟩ := now
  exact next t rest o

theorem Sees.bind {op : Op α} {a : α} (h : Sees τ op a s) {f : α → Op β} {b : β}
    (next : ∀ t, τ.rest t → s.Others t → Sees τ (f a) b t) : Sees τ (op >>= f) b s :=
  h.andThen fun t rest o => (next t rest o).mono fun _ _ _ now => ⟨o.trans now.1, now.2⟩

theorem sees_parse (rest : Tame x s) {bytes : Bytes} (parsed : x.fromSlice bytes = some identity) :
    Sees (recovery x F p) (parse x bytes) identity s := by
  unfold parse
  rw [parsed]
  exact Sees.returns rest _

variable (hF : ∀ c, F c → c.Grows)
include hF

theorem exact_does {c : Call} {r : Except Fault (Reply c)} {t : Machine}
    (h : s.MayDo F p c r t) (small : ¬ c.Grows) : s.Does p c r t :=
  h.resolve_right fun fault => small (hF c fault.1)

variable (rest : Tame x s)
include rest

theorem sees_read {file : File} (there : s.file d f = some file) :
    Sees (recovery x F p) (sys (.read d f)) file.bytes s := by
  refine (onRecovery x F p).look rest (.read d f) trivial fun r t o _ does => ⟨o, ?_⟩
  obtain ⟨_, answer⟩ := exact_does hF does id
  rw [o.file, there] at answer
  exact answer

theorem missing_read (gone : s.file d f = none) :
    (sys (.read d f)).Holds (recovery x F p) (fun r t => s.Others t ∧ r = .error .notFound) s := by
  refine (onRecovery x F p).look rest (.read d f) trivial fun r t o _ does => ⟨o, ?_⟩
  obtain ⟨_, answer⟩ := exact_does hF does id
  rw [o.file, gone] at answer
  exact answer

theorem sees_readBounded {file : File} {limit : Nat} (there : s.file d f = some file)
    (small : file.bytes.length ≤ limit) : Sees (recovery x F p) (readBounded d f limit) file.bytes s := by
  refine (sees_read hF rest there).bind fun t rest o => ?_
  exact (Sees.require rest _ (decide_eq_true small)).bind fun u rest _ => Sees.returns rest _

theorem missing_readBounded {limit : Nat} (gone : s.file d f = none) : (readBounded d f limit).Holds (recovery x F p)
      (fun r t => s.Others t ∧ r = .error .notFound) s := by
  refine Holds.bind (missing_read hF rest gone) (fun a t _ now => ?_) fun e t _ now => ?_
  · cases now.2
  · exact ⟨now.1, by rw [Except.error.inj now.2]⟩

/-- A directory is listed, in some order. -/
theorem lists_readDir (at_ : s.dirs d = some dir) :
    (sys (.readDir d)).Holds (recovery x F p) (fun r t => ∃ files, r = .ok files ∧ s.Others t ∧
      files.Nodup ∧ ∀ f, f ∈ files ↔ (dir f).isSome) s := by
  refine (onRecovery x F p).look rest (.readDir d) trivial fun r t o _ does => ?_
  obtain ⟨_, answer⟩ := exact_does hF does id
  rw [o.dirs, at_] at answer
  obtain ⟨files, same, nodup, mem⟩ := answer
  exact ⟨files, same, o, nodup, mem⟩

theorem sees_checkFiles {allowed : List FileName} (at_ : s.dirs d = some dir)
    (only : ∀ f file, dir f = some file → f ∈ allowed) : Sees (recovery x F p) (checkFiles d allowed) () s := by
  refine Holds.proceed (Q := fun files t => s.Others t ∧ ∀ f, f ∈ files ↔ (dir f).isSome)
    ((lists_readDir hF rest at_).mono fun r t _ ⟨files, same, o, _, mem⟩ => ⟨files, same, o, mem⟩)
    fun files t rest now => ?_
  refine (Sees.require rest _ (List.all_eq_true.2 fun f mem => ?_)).mono fun _ _ _ seen =>
    ⟨now.1.trans seen.1, seen.2⟩
  have there := (now.2 f).1 mem
  obtain ⟨file, at_f⟩ := Option.isSome_iff_exists.1 there
  simpa using only f file at_f

theorem sees_hashFile {file : File} (there : s.file d f = some file) :
    Sees (recovery x F p) (hashFile x d f) (hashOf x file.bytes) s :=
  (sees_read hF rest there).bind fun _ rest _ => Sees.returns rest _

/-- A file of a directory is removed. -/
theorem removeFile_sets {file : File} (at_ : s.dirs d = some dir) (there : dir f = some file)
    (fits : Fits x d (Function.update dir f none)) : (sys (.removeFile d f)).Holds (recovery x F p)
      (fun r t => r = .ok () ∧ s.Sets d (some (Function.update dir f none)) t) s := by
  refine ⟨rest, fun s' r t o does => ⟨trivial, ?_⟩⟩
  have rest' : Tame x s' := rest.others o
  have at' : s'.dirs d = some dir := o.dirs ▸ at_
  rcases Machine.does_removeFile (exact_does hF does.1 id) with
    ⟨dir', _, at'', _, rfl, rfl⟩ | ⟨_, gone, _⟩
  · rw [at'] at at''
    cases at''
    have sets := Machine.Sets.of_setDir s' d (some (Function.update dir f none))
    refine ⟨rest'.sets at' sets (Nat.le_refl _) fits fun g file there => ?_, rfl, sets.after o⟩
    exact ⟨file, (Dir.within_remove dir f).some there, rfl⟩
  · simp [Machine.file, at', there] at gone

/-- A file of a directory is removed, if it is there. -/
theorem removeIfThere_sets (at_ : s.dirs d = some dir) (fits : Fits x d (Function.update dir f none)) :
    (removeIfThere d f).Holds (recovery x F p)
      (fun r t => r = .ok () ∧ s.Sets d (some (Function.update dir f none)) t) s := by
  cases there : dir f with
  | some file =>
      refine Holds.attempt ((removeFile_sets hF rest at_ there fits).mono fun r t rest now => ?_)
      rw [now.1]
      exact ⟨rest, rfl, now.2⟩
  | none =>
      have missing : (sys (.removeFile d f)).Holds (recovery x F p)
          (fun r t => s.Others t ∧ r = .error .notFound) s := by
        refine ⟨rest, fun s' r t o does => ⟨trivial, ?_⟩⟩
        have at' : s'.dirs d = some dir := o.dirs ▸ at_
        rcases Machine.does_removeFile (exact_does hF does.1 id) with
          ⟨dir', _, at'', there', _, _⟩ | ⟨rfl, _, rfl⟩
        · rw [at'] at at''
          cases at''
          rw [there] at there'
          cases there'
        · exact ⟨rest.others o, o, rfl⟩
      refine Holds.attempt (missing.mono fun r t rest now => ?_)
      rw [now.2]
      refine ⟨rest, rfl, ?_⟩
      have same : Function.update dir f none = dir := by
        rw [← there, Function.update_eq_self]
      rw [same]
      refine Machine.Sets.before ⟨?_, rfl, rfl⟩ now.1
      rw [← at_, Function.update_eq_self]

/-- An empty directory is removed. -/
theorem removeDir_sets (at_ : s.dirs d = some Dir.empty) :
    (sys (.removeDir d)).Holds (recovery x F p) (fun r t => r = .ok () ∧ s.Sets d none t) s := by
  refine ⟨rest, fun s' r t o does => ⟨trivial, ?_⟩⟩
  rcases Machine.does_removeDir (exact_does hF does.1 id) with
    ⟨_, rfl, rfl⟩ | ⟨_, filled, _⟩
  · have sets := Machine.Sets.of_setDir s' d none
    exact ⟨(rest.others o).removed sets (Nat.le_refl _), rfl, sets.after o⟩
  · rw [o.dirs] at filled
    exact (filled at_).elim

end Seeing

section Finishing

variable {x : Externals} {F : Call → Prop} {p : Pid} {s : Machine}

theorem Machine.Sets.still {d : Directory} (at_ : s.dirs d = some dir) : s.Sets d (some dir) s :=
  ⟨by rw [← at_, Function.update_eq_self], rfl, rfl⟩

variable (hF : ∀ c, F c → c.Grows)
include hF

variable {tail : String}

/-- Files of a staging directory are removed, one after another. -/
theorem removeFiles_sets {l : List FileName} (nodup : l.Nodup) :
    ∀ {s : Machine} {dir : Dir}, Tame x s → s.dirs (.publish tail) = some dir →
      (∀ f ∈ l, (dir f).isSome) →
      (l.forM fun f => sys (.removeFile (.publish tail) f)).Holds (recovery x F p)
        (fun r t => r = .ok ⟨⟩ ∧ ∃ dir', s.Sets (.publish tail) (some dir') t ∧
          ∀ f, dir' f = if f ∈ l then none else dir f) s := by
  induction l with
  | nil =>
      intro s dir rest at_ _
      exact ⟨rest, rfl, dir, .still at_, fun f => by simp⟩
  | cons f l ih =>
      intro s dir rest at_ there
      obtain ⟨file, at_f⟩ := Option.isSome_iff_exists.1 (there f (.head _))
      have staging : Staging x dir := rest.fits _ _ at_
      change (sys (.removeFile (.publish tail) f) >>= fun _ =>
        l.forM fun f => sys (.removeFile (.publish tail) f)).Holds _ _ _
      refine Holds.proceed (Q := fun _ t => s.Sets (.publish tail) (some (Function.update dir f none)) t)
        ((removeFile_sets hF rest at_ at_f (staging.within (Dir.within_remove dir f))).mono
          fun r t _ now => ⟨(), now.1, now.2⟩) fun _ t rest sets => ?_
      have still_there : ∀ g ∈ l, (Function.update dir f none g).isSome := by
        intro g mem
        have ne : g ≠ f := fun same => (List.nodup_cons.1 nodup).1 (same ▸ mem)
        rw [Function.update_of_ne ne]
        exact there g (.tail f mem)
      refine (ih (List.nodup_cons.1 nodup).2 rest sets.self still_there).mono fun r u _ now => ?_
      obtain ⟨same, dir', sets', left⟩ := now
      refine ⟨same, dir', sets.trans sets', fun g => ?_⟩
      rw [left g]
      by_cases eq : g = f
      · subst eq
        simp
      · simp [List.mem_cons, eq]

/-- What `remove_dir_all` leaves of a staging directory. -/
theorem removeDirAll_sets (rest : Tame x s) (at_ : s.dirs (.publish tail) = some dir) :
    (removeDirAll (.publish tail)).Holds (recovery x F p)
      (fun r t => r = .ok () ∧ s.Sets (.publish tail) none t) s := by
  refine Holds.proceed (Q := fun files t => s.Others t ∧ files.Nodup ∧
    ∀ f, f ∈ files ↔ (dir f).isSome) (lists_readDir hF rest at_) fun files t rest now => ?_
  obtain ⟨o, nodup, mem⟩ := now
  have at_t : t.dirs (.publish tail) = some dir := o.dirs ▸ at_
  refine Holds.proceed (Q := fun _ u => t.Sets (.publish tail) (some Dir.empty) u)
    ((removeFiles_sets hF nodup rest at_t fun f => (mem f).1).mono fun r u _ now => ?_)
    fun _ u rest sets => ?_
  · obtain ⟨same, dir', sets, left⟩ := now
    refine ⟨⟨⟩, same, ?_⟩
    have empty : dir' = Dir.empty := by
      funext f
      rw [left f]
      split
      · rfl
      · next absent =>
        rw [mem f, Option.not_isSome_iff_eq_none] at absent
        exact absent
    exact empty ▸ sets
  · exact (removeDir_sets hF rest sets.self).mono fun r v _ now =>
      ⟨now.1, (sets.trans now.2).after o⟩

/-- A staging directory that is not orphaned gives its metadata. -/
theorem sees_publicationMetadata {file : File} (rest : Tame x s) (at_ : s.dirs (.publish tail) = some dir)
    (metadata : dir.metadata = some file) (small : file.bytes.length ≤ manifestLimit) :
    Sees (recovery x F p) (publicationMetadata (.publish tail)) file.bytes s := by
  have file_at : ∀ f, s.file (.publish tail) f = dir f := fun f => by simp [Machine.file, at_]
  rcases Option.or_eq_some_iff.1 metadata with there | ⟨gone, there⟩
  · refine Holds.attempt ((sees_readBounded hF rest ((file_at _).trans there) small).mono
      fun r t rest now => ?_)
    rw [now.2]
    exact ⟨rest, now.1, rfl⟩
  · refine Holds.attempt ((missing_readBounded hF rest ((file_at _).trans gone)).mono fun r t rest now => ?_)
    rw [now.2]
    refine (sees_readBounded hF rest ?_ small).mono fun _ _ _ seen =>
      ⟨now.1.trans seen.1, seen.2⟩
    rw [now.1.file, file_at]
    exact there

/-- A staging directory with readable metadata is cleaned up completely. -/
theorem cleanupStaging_finishes (lawful : x.Lawful) (rest : Tame x s) (at_ : s.dirs (.publish tail) = some dir)
    (live : ¬ Orphaned x dir) : (cleanupStaging x (.publish tail)).Holds (recovery x F p)
      (fun r t => r = .ok () ∧ s.Sets (.publish tail) none t) s := by
  refine Holds.proceed (Q := fun files t => s.Others t ∧ files.Nodup ∧
    ∀ f, f ∈ files ↔ (dir f).isSome) (lists_readDir hF rest at_) fun files t rest now => ?_
  obtain ⟨o, _, mem⟩ := now
  have at_t : t.dirs (.publish tail) = some dir := o.dirs ▸ at_
  split
  · next none_ =>
    have empty : dir = Dir.empty := by
      funext f
      rw [List.isEmpty_iff.1 none_] at mem
      simpa [Dir.empty] using mem f
    exact (removeDir_sets hF rest (empty ▸ at_t)).mono fun r u _ now => ⟨now.1, now.2.after o⟩
  · next some_ =>
    have filled : dir ≠ Dir.empty := by
      rintro rfl
      refine some_ (List.isEmpty_iff.2 (List.eq_nil_iff_forall_not_mem.2 fun f listed => ?_))
      simpa [Dir.empty] using (mem f).1 listed
    obtain ⟨identity, file, staging, metadata, bytes⟩ :=
      Staging.readable lawful (rest.fits _ _ at_t) live filled
    refine (sees_publicationMetadata hF rest at_t metadata (bytes ▸ staging.small)).andThen
      fun t₁ rest o₁ => ?_
    refine (sees_parse rest (bytes ▸ lawful.roundTrip identity staging.small)).andThen fun t₂ rest o₂ => ?_
    refine (Sees.require rest _ (by simp [staging.schema])).andThen fun t₃ rest o₃ => ?_
    have o_t : t.Others t₃ := (o₁.trans o₂).trans o₃
    refine (sees_checkFiles hF rest (o_t.dirs ▸ at_t) staging.files).andThen fun t₄ rest o₄ => ?_
    have at_t₄ : t₄.dirs (.publish tail) = some dir := (o_t.trans o₄).dirs ▸ at_t
    refine Holds.proceed (Q := fun files t => t₄.Others t ∧ files.Nodup ∧
      ∀ f, f ∈ files ↔ (dir f).isSome) (lists_readDir hF rest at_t₄) fun files t₅ rest now => ?_
    obtain ⟨o₅, nodup, listed⟩ := now
    have all : s.Others t₅ := ((o.trans o_t).trans o₄).trans o₅
    -- everything but the transaction goes first
    refine Holds.proceed (Q := fun _ u => ∃ dir', t₅.Sets (.publish tail) (some dir') u ∧
        Function.update dir' .transaction none = Dir.empty ∧ Staging x dir')
      ((removeFiles_sets hF (nodup.filter _) rest (all.dirs ▸ at_) fun f mem =>
        (listed f).1 (List.mem_filter.1 mem).1).mono fun r u rest now => ?_)
      fun _ u rest now => ?_
    · obtain ⟨same, dir', sets, left⟩ := now
      refine ⟨⟨⟩, same, dir', sets, ?_, rest.fits _ _ sets.self⟩
      funext f
      by_cases eq : f = .transaction
      · rw [eq, Function.update_self]
        rfl
      · rw [Function.update_of_ne eq, left f]
        split
        · rfl
        · next absent =>
          have : f ∉ files := fun mem => absent (List.mem_filter.2 ⟨mem, by simp [eq]⟩)
          rw [listed f, Option.not_isSome_iff_eq_none] at this
          exact this
    · obtain ⟨dir', sets, gone, staging'⟩ := now
      refine Holds.proceed (Q := fun _ v => u.Sets (.publish tail) (some Dir.empty) v)
        ((removeIfThere_sets hF rest sets.self
          (staging'.within (Dir.within_remove dir' _))).mono fun r v _ now => ?_)
        fun _ v rest sets' => ?_
      · exact ⟨(), now.1, gone ▸ now.2⟩
      · exact (removeDir_sets hF rest sets'.self).mono fun r w _ now =>
          ⟨now.1, ((sets.trans sets').trans now.2).after all⟩

theorem sees_checkProgram {d : Directory} (rest : Tame x s) (at_ : s.dirs d = some dir)
    (program : ∀ file, dir (.program identity.role) = some file →
      hashOf x file.bytes = (identity.digest, identity.bytes)) :
    Sees (recovery x F p) (checkProgram x d identity) () s := by
  have file_at : ∀ f, s.file d f = dir f := fun f => by simp [Machine.file, at_]
  cases there : dir (.program identity.role) with
  | some file =>
      refine Holds.attempt ((sees_hashFile hF rest ((file_at _).trans there)).mono fun r t rest now => ?_)
      rw [now.2]
      refine (Sees.require rest _ ?_).mono fun _ _ _ seen => ⟨now.1.trans seen.1, seen.2⟩
      exact beq_iff_eq.2 (program file there)
  | none =>
      have missing : (hashFile x d (.program identity.role)).Holds (recovery x F p)
          (fun r t => s.Others t ∧ r = .error .notFound) s := by
        refine Holds.bind (missing_read hF rest ((file_at _).trans there))
          (fun a t _ now => ?_) fun e t _ now => ?_
        · cases now.2
        · exact ⟨now.1, by rw [Except.error.inj now.2]⟩
      refine Holds.attempt (missing.mono fun r t rest now => ?_)
      rw [now.2]
      exact ⟨rest, now.1, rfl⟩

/-- Nobody holds a generation that was set aside. -/
theorem sees_checkVacant (rest : Tame x s) : Sees (recovery x F p) (checkVacant (.gc id)) () s := by
  have answered : (sys (.vacant (.gc id))).Holds (recovery x F p)
      (fun r t => s.Others t ∧ (r = .error .notFound ∨ r = .ok true)) s := by
    refine ⟨rest, fun s' r t o does => ⟨trivial, ?_⟩⟩
    obtain ⟨rfl, answer⟩ := exact_does hF does.1 fun grows => grows
    have rest' : Tame x t := rest.others o
    refine ⟨rest', o, ?_⟩
    cases there : t.file (.gc id) .lease with
    | none => rw [there] at answer; exact .inl answer
    | some file =>
        rw [there] at answer
        refine .inr (answer.trans (congrArg Except.ok (List.all_eq_true.2 fun lease mem => ?_)))
        obtain ⟨id', file', path, there', inode⟩ := does.2.1.leases lease mem
        have ne : lease.2.inode ≠ file.inode := by
          intro same
          rw [path] at there'
          have := (rest'.inodes.apart _ _ _ _ _ _ there' there (inode.trans same)).1
          cases this
        simpa using ne
  refine Holds.attempt (answered.mono fun r t rest now => ?_)
  rcases now with ⟨o, rfl | rfl⟩
  · exact ⟨rest, o, rfl⟩
  · exact (Sees.require rest _ rfl).mono fun _ _ _ seen => ⟨o.trans seen.1, seen.2⟩

/-- An interrupted collection of a generation is completed. -/
theorem finishCollection_finishes (rest : Tame x s) (at_ : s.dirs (.gc id) = some dir) :
    (finishCollection x (.gc id) id).Holds (recovery x F p)
      (fun r t => r = .ok () ∧ s.Sets (.gc id) none t) s := by
  refine Holds.proceed (Q := fun files t => s.Others t ∧ files.Nodup ∧
    ∀ f, f ∈ files ↔ (dir f).isSome) (lists_readDir hF rest at_) fun files t rest now => ?_
  obtain ⟨o, _, mem⟩ := now
  have at_t : t.dirs (.gc id) = some dir := o.dirs ▸ at_
  split
  · next none_ =>
    have empty : dir = Dir.empty := by
      funext f
      rw [List.isEmpty_iff.1 none_] at mem
      simpa [Dir.empty] using mem f
    exact (removeDir_sets hF rest (empty ▸ at_t)).mono fun r u _ now => ⟨now.1, now.2.after o⟩
  · next some_ =>
    have tomb : Tomb x id dir := rest.fits _ _ at_t
    rcases tomb with rfl | ⟨identity, file, there, parsed, small, schema, named, files', program⟩
    · refine (some_ (List.isEmpty_iff.2 (List.eq_nil_iff_forall_not_mem.2 fun f listed => ?_))).elim
      simpa [Dir.empty] using (mem f).1 listed
    have tomb : Tomb x id dir := rest.fits _ _ at_t
    have file_at : t.file (.gc id) .manifest = some file := by
      rw [← there]
      simp [Machine.file, at_t]
    refine (sees_readBounded hF rest file_at small).andThen fun t₁ rest o₁ => ?_
    refine (sees_parse rest parsed).andThen fun t₂ rest o₂ => ?_
    refine (Sees.require rest _ (by simp [schema, named])).andThen fun t₃ rest o₃ => ?_
    have o_t₃ : t.Others t₃ := (o₁.trans o₂).trans o₃
    refine (sees_checkFiles hF rest (o_t₃.dirs ▸ at_t) files').andThen fun t₄ rest o₄ => ?_
    have o_t₄ : t.Others t₄ := o_t₃.trans o₄
    refine (sees_checkProgram hF rest (o_t₄.dirs ▸ at_t) program).andThen fun t₅ rest o₅ => ?_
    have o_t₅ : t.Others t₅ := o_t₄.trans o₅
    refine (sees_checkVacant hF rest).andThen fun t₆ rest o₆ => ?_
    have all : s.Others t₆ := o.trans (o_t₅.trans o₆)
    have tomb₁ : Tomb x id (Function.update dir (.program identity.role) none) :=
      tomb.remove (by simp)
    have tomb₂ := tomb₁.remove (f := .lease) (by simp)
    have last := Dir.removed_all files'
    refine Holds.proceed (Q := fun _ u => t₆.Sets (.gc id) (some _) u)
      ((removeIfThere_sets (d := .gc id) hF rest (all.dirs ▸ at_) tomb₁).mono
        fun r u _ now => ⟨(), now⟩) fun _ u₁ rest sets₁ => ?_
    refine Holds.proceed (Q := fun _ u => u₁.Sets (.gc id) (some _) u)
      ((removeIfThere_sets (d := .gc id) hF rest sets₁.self tomb₂).mono
        fun r u _ now => ⟨(), now⟩) fun _ u₂ rest sets₂ => ?_
    refine Holds.proceed (Q := fun _ u => u₂.Sets (.gc id) (some _) u)
      ((removeIfThere_sets (d := .gc id) hF rest sets₂.self (.inl last)).mono
        fun r u _ now => ⟨(), now⟩) fun _ u₃ rest sets₃ => ?_
    refine (removeDir_sets hF rest (last ▸ sets₃.self)).mono fun r u₄ _ now => ⟨now.1, ?_⟩
    exact (((sets₁.trans sets₂).trans sets₃).trans now.2).after all

end Finishing

section Collecting

variable {x : Externals} {F : Call → Prop} {p : Pid} {s : Machine}

/-- A generation that may be deleted is set aside, unless the call fails. -/
theorem rename_moves (rest : Tame x s) (at_ : s.dirs (.generation id) = some dir) (tomb : Tomb x id dir) :
    (sys (.rename (.generation id) (.gc id))).Holds (recovery x F p)
      (fun r t => (r = .ok () ∧ ∃ u, s.Sets (.generation id) none u ∧ u.Sets (.gc id) (some dir) t) ∨
        ((∃ e, r = .error e) ∧ s.Others t)) s := by
  refine ⟨rest, fun s' r t o does => ⟨trivial, ?_⟩⟩
  have rest' : Tame x s' := rest.others o
  have at' : s'.dirs (.generation id) = some dir := o.dirs ▸ at_
  rcases does.1 with moved | ⟨_, rfl, text, rfl⟩
  · rcases Machine.does_rename moved with ⟨dir', at'', _, rfl, rfl⟩ | ⟨failed, rfl⟩
    · rw [at'] at at''
      cases at''
      have gone := Machine.Sets.of_setDir s' (.generation id) none
      have there := Machine.Sets.of_setDir (s'.setDir (.generation id) none) (.gc id) (some dir)
      refine ⟨rest'.moves at' (Directory.gc_ne_generation id id).symm gone there (Nat.le_refl _) tomb fun id' => ?_,
        .inl ⟨rfl, _, gone.after o, there⟩⟩
      have apart := fun i j => (Directory.gc_ne_generation i j).symm
      by_cases same : id' = id
      · subst same
        exact .inr ((there.other (apart _ _)).trans gone.self)
      · rw [there.other (by simpa using same), there.other (apart _ _),
          gone.other (apart _ _).symm, gone.other (by simpa using same)]
        exact rest'.exclusive id'
    · exact ⟨rest', .inr ⟨failed, o⟩⟩
  · exact ⟨rest', .inr ⟨⟨_, rfl⟩, o⟩⟩

variable (hF : ∀ c, F c → c.Grows)
include hF

theorem removeGeneration_finishes (rest : Tame x s) (at_ : s.dirs (.generation id) = some dir) (tomb : Tomb x id dir) :
    (removeGeneration x id).Holds (recovery x F p)
      (fun r t => (r = .ok () ∧ s.Sets (.generation id) none t) ∨ ((∃ e, r = .error e) ∧ s.Others t)) s := by
  have none_there : s.dirs (.gc id) = none := by
    refine (rest.exclusive id).resolve_right fun gone => ?_
    rw [at_] at gone
    cases gone
  refine Holds.bind (rename_moves rest at_ tomb) (fun _ t rest now => ?_) fun e t _ now => ?_
  · rcases now with ⟨_, u, gone, there⟩ | ⟨⟨_, failed⟩, _⟩
    · refine (finishCollection_finishes hF rest there.self).mono fun r v _ now => .inl ⟨now.1, ?_⟩
      refine ⟨?_, now.2.index.trans (there.index.trans gone.index),
        now.2.reservations.trans (there.reservations.trans gone.reservations)⟩
      funext d
      by_cases same : d = .gc id
      · subst same
        rw [now.2.self, Function.update_of_ne (Directory.gc_ne_generation id id), none_there]
      · rw [now.2.other same, there.other same, gone.dirs]
    · cases failed
  · rcases now with ⟨failed, _⟩ | now
    · cases failed
    · exact .inr ⟨⟨e, rfl⟩, now.2⟩

/-- What a collection does at the directory of a generation. -/
structure Turn (ids : List Id) (id : Id) (result c : Collection) (s t : Machine) : Prop where
  unknown : ∀ d ∈ c.unknown, d ∈ result.unknown ∨ d = .generation id
  removed : ∀ d ∈ result.removed, d ∈ c.removed
  dirs : t.dirs = s.dirs ∨
    (t.dirs = Function.update s.dirs (.generation id) none ∧ .generation id ∈ c.removed ∧ id ∉ ids)
  index : t.index = s.index
  reservations : t.reservations = s.reservations

variable {ids : List Id} {result c : Collection} {t s₀ : Machine} {d : Directory} {left : List Entry}

omit hF in
theorem Turn.still (o : s.Others t) (unknown : ∀ d ∈ c.unknown, d ∈ result.unknown ∨ d = .generation id)
    (removed : c.removed = result.removed) : Turn ids id result c s t :=
  ⟨unknown, fun _ mem => removed ▸ mem, .inl o.dirs, o.index, o.reservations⟩

omit hF in
theorem unknown_added {d' : Directory} (mem : d' ∈ (result.addUnknown d).unknown) : d' ∈ result.unknown ∨ d' = d := by
  rcases List.mem_append.1 mem with mem | mem
  · exact .inl mem
  · exact .inr (List.mem_singleton.1 mem)

theorem collectVacant_turn (rest : Tame x s) (unnamed : id ∉ ids) (at_ : s.dirs (.generation id) = some dir)
    (manifest : ∃ file, dir .manifest = some file ∧ x.fromSlice file.bytes = some identity ∧
      file.bytes.length ≤ manifestLimit) (schema : identity.schema = 1) (named : identity.id x = id)
    (files : ∀ f, (dir f).isSome ↔ f ∈ [FileName.program identity.role, .manifest, .lease]) :
    (collectVacant x result id identity).Holds (recovery x F p)
      (fun r t => ∃ c, r = .ok c ∧ Turn ids id result c s t) s := by
  refine (looks_hashFile (onRecovery x F p) rest x _ _).attempt fun r t rest o hashed => ?_
  cases r with
  | error e => exact ⟨rest, _, rfl, Turn.still o (fun d => unknown_added) rfl⟩
  | ok observed =>
      dsimp only
      split
      · next same =>
        obtain ⟨file, there, hash⟩ := hashed observed rfl
        obtain ⟨found, isManifest, parsed, small⟩ := manifest
        have tomb : Tomb x id dir := by
          refine .inr ⟨identity, found, isManifest, parsed, small, schema, named,
            fun f file' there' => ?_, fun file' there' => ?_⟩
          · have := (files f).1 (by rw [there']; rfl)
            simp only [List.mem_cons, List.not_mem_nil, or_false] at this ⊢
            tauto
          · have : some file = some file' := by
              rw [← there, ← there']
              simp [Machine.file, at_]
            cases this
            exact hash.trans same
        refine Holds.attempt ((removeGeneration_finishes hF rest (o.dirs ▸ at_) tomb).mono
          fun r u rest now => ?_)
        rcases now with ⟨rfl, sets⟩ | ⟨⟨e, rfl⟩, o'⟩
        · have sets := sets.after o
          refine ⟨rest, _, rfl, fun d mem => .inl mem, fun d mem => List.mem_append_left _ mem,
            .inr ⟨sets.dirs, List.mem_append_right _ (.head _), unnamed⟩,
            sets.index, sets.reservations⟩
        · exact ⟨rest, _, rfl, Turn.still (o.trans o') (fun d => unknown_added) rfl⟩
      · exact ⟨rest, _, rfl, Turn.still o (fun d => unknown_added) rfl⟩

theorem collectGeneration_turn (rest : Tame x s) : (collectGeneration x ids result id).Holds (recovery x F p)
      (fun r t => ∃ c, r = .ok c ∧ Turn ids id result c s t) s := by
  refine (looks_identityAt (onRecovery x F p) rest x id).attempt fun r t rest o found => ?_
  cases r with
  | error e => exact ⟨rest, _, rfl, Turn.still o (fun d => unknown_added) rfl⟩
  | ok identity =>
      obtain ⟨dir, at_, manifest, schema, named, files⟩ := found identity rfl
      dsimp only
      split
      · exact ⟨rest, _, rfl, Turn.still o (fun d mem => .inl mem) rfl⟩
      · next unnamed =>
        have look : Looks (recovery x F p) (sys (.vacant (.generation id))) (fun _ => True) t :=
          Looks.sys (onRecovery x F p) rest (.vacant _) trivial fun _ _ _ _ => trivial
        refine look.attempt fun r u rest o' _ => ?_
        have both : s.Others u := o.trans o'
        match r with
        | .error e => exact ⟨rest, _, rfl, Turn.still both (fun d => unknown_added) rfl⟩
        | .ok false => exact ⟨rest, _, rfl, Turn.still both (fun d mem => .inl mem) rfl⟩
        | .ok true =>
            refine (collectVacant_turn hF rest unnamed (both.dirs ▸ at_) manifest schema named
              files).mono fun r v _ now => ?_
            obtain ⟨c, same, turn⟩ := now
            exact ⟨c, same, turn.unknown, turn.removed, both.dirs ▸ turn.dirs,
              turn.index.trans both.index, turn.reservations.trans both.reservations⟩

/-- How far a collection that started at `s₀` has come: what is `left` of the listing. -/
structure Swept (x : Externals) (s₀ : Machine) (ids : List Id) (left : List Entry) (c : Collection)
    (t : Machine) : Prop where
  nodup : left.Nodup
  present : ∀ d : Directory, d.Aside → ((t.dirs d).isSome ↔ Entry.directory d ∈ left)
  unknown : ∀ d ∈ c.unknown, ¬ d.Aside
  kept : ∀ id, t.dirs (.generation id) = s₀.dirs (.generation id) ∨
    (.generation id ∈ c.removed ∧ id ∉ ids)
  live : NoOrphans x t
  index : t.index = s₀.index
  reservations : t.reservations = s₀.reservations

omit hF in
theorem NoOrphans.others (o : s.Others t) (h : NoOrphans x s) : NoOrphans x t :=
  fun tail dir at_ => h tail dir (o.dirs ▸ at_)

omit hF in
theorem NoOrphans.removed (sets : s.Sets d none t) (h : NoOrphans x s) : NoOrphans x t := by
  intro tail dir at_
  by_cases same : Directory.publish tail = d
  · rw [same, sets.self] at at_
    cases at_
  · rw [sets.other same] at at_
    exact h tail dir at_

omit hF in
/-- A leftover is taken away. -/
theorem Swept.removed (aside : d.Aside) (h : Swept x s₀ ids (.directory d :: left) c s) (sets : s.Sets d none t) :
    Swept x s₀ ids left c t where
  nodup := (List.nodup_cons.1 h.nodup).2
  present d' aside' := by
    by_cases same : d' = d
    · subst same
      simp [sets.self, (List.nodup_cons.1 h.nodup).1]
    · rw [sets.other same, h.present d' aside', List.mem_cons]
      simp [same]
  unknown := h.unknown
  kept id := by
    have other : Directory.generation id ≠ d := by
      rintro rfl
      exact aside
    rw [sets.other other]
    exact h.kept id
  live := h.live.removed sets
  index := sets.index.trans h.index
  reservations := sets.reservations.trans h.reservations

omit hF in
theorem Swept.turned {c' : Collection} (h : Swept x s₀ ids (.directory (.generation id) :: left) c s)
    (turn : Turn ids id c c' s t) : Swept x s₀ ids left c' t := by
  have aside : ∀ d : Directory, d.Aside → t.dirs d = s.dirs d := by
    intro d aside
    rcases turn.dirs with same | ⟨gone, _⟩
    · rw [same]
    · rw [gone]
      refine Function.update_of_ne ?_ _ _
      rintro rfl
      exact aside
  refine ⟨(List.nodup_cons.1 h.nodup).2, fun d a => ?_, fun d mem => ?_, fun id' => ?_,
    fun tail dir at_ => ?_, turn.index.trans h.index, turn.reservations.trans h.reservations⟩
  · rw [aside d a, h.present d a, List.mem_cons]
    refine ⟨fun mem => mem.resolve_left ?_, .inr⟩
    rintro same
    cases same
    exact a
  · rcases turn.unknown d mem with old | rfl
    · exact h.unknown d old
    · exact fun aside => aside
  · rcases turn.dirs with same | ⟨gone, removed, unnamed⟩
    · rw [same]
      exact (h.kept id').imp_right fun now => ⟨turn.removed _ now.1, now.2⟩
    · by_cases eq : id' = id
      · exact .inr (eq ▸ ⟨removed, unnamed⟩)
      · rw [gone, Function.update_of_ne (by simpa using eq)]
        exact (h.kept id').imp_right fun now => ⟨turn.removed _ now.1, now.2⟩
  · exact h.live tail dir ((aside (.publish tail) trivial) ▸ at_)

theorem collectEntry_swept (lawful : x.Lawful) {e : Entry} (rest : Tame x s) (h : Swept x s₀ ids (e :: left) c s) :
    (collectEntry x ids c e).Holds (recovery x F p)
      (fun r t => ∃ c', r = .ok c' ∧ Swept x s₀ ids left c' t) s := by
  match e with
  | .directory (.publish tail) =>
      obtain ⟨dir, at_⟩ := Option.isSome_iff_exists.1
        ((h.present (.publish tail) trivial).2 (.head _))
      refine Holds.attempt ((cleanupStaging_finishes hF lawful rest at_
        (h.live tail dir at_)).mono fun r t rest now => ?_)
      rw [now.1]
      exact ⟨rest, c, rfl, h.removed (d := .publish tail) trivial now.2⟩
  | .directory (.gc id) =>
      obtain ⟨dir, at_⟩ := Option.isSome_iff_exists.1
        ((h.present (.gc id) trivial).2 (.head _))
      refine Holds.attempt ((finishCollection_finishes hF rest at_).mono fun r t rest now => ?_)
      rw [now.1]
      exact ⟨rest, c, rfl, h.removed (d := .gc id) trivial now.2⟩
  | .directory (.generation id) =>
      refine (collectGeneration_turn hF rest).mono fun r t _ now => ?_
      obtain ⟨c', same, turn⟩ := now
      exact ⟨c', same, h.turned turn⟩
  | .reservation id =>
      refine ⟨rest, c, rfl, (List.nodup_cons.1 h.nodup).2, fun d a => ?_, h.unknown, h.kept, h.live,
        h.index, h.reservations⟩
      rw [h.present d a]
      simp

/-- A collection takes every leftover away, whatever it finds. -/
theorem collectLocked_finishes (lawful : x.Lawful) {index : Index} (rest : Tame x s) (live : NoOrphans x s) :
    (collectLocked x index).Holds (recovery x F p)
      (fun r t => match r with
        | .ok c => ∃ ids, (∀ id, index.Names id ∨ s.Reserved id → id ∈ ids) ∧
            Swept x s ids [] c t
        | .error _ => s.Others t) s := by
  refine (looks_protectedOf (onRecovery x F p) rest index).andThen (fun ids t rest o named => ?_)
    fun _ _ _ o => o
  refine (looks_readRoot (onRecovery x F p) rest).andThen (fun entries u rest o' listed => ?_)
    fun _ _ _ o' => o.trans o'
  have both : s.Others u := o.trans o'
  have start : Swept x s ids entries .empty u := by
    refine ⟨listed.1, fun d _ => ?_, fun d mem => (List.not_mem_nil mem).elim,
      fun id => .inl (by rw [both.dirs]), live.others both, both.index, both.reservations⟩
    rw [listed.2, o'.dirs]
    rfl
  refine Holds.foldlM (I := fun left c v => Swept x s ids left c v) (fun e left c v rest h => ?_)
    (fun c v _ h => ⟨ids, named, h⟩) rest start
  refine (collectEntry_swept hF lawful rest h).mono fun r w _ now => ?_
  obtain ⟨c', rfl, swept⟩ := now
  exact swept

end Collecting

section Publishing

variable {x : Externals} {F : Call → Prop} {p : Pid} {s t : Machine} {tail : String}
  {identity : Identity}

/-- The calls that fill a staging directory. -/
def Call.Fills (x : Externals) (tail : String) (identity : Identity) (c : Call) : Prop :=
  c.Reads ∨
    (∃ f ∈ [FileName.program identity.role, .lease, .manifest, .transaction], c = .create (.publish tail) f) ∨
    (∃ f bytes, (f = .transaction ∨ f = .manifest → bytes = x.toVec identity) ∧
      c = .write (.publish tail) f bytes) ∨
    c = .removeFile (.publish tail) .transaction

/-- Since `s₀` nothing happened but to the staging directory. -/
def Filling (x : Externals) (tail : String) (identity : Identity) (s₀ s : Machine) : Prop :=
  Tame x s ∧ ∃ dir, s₀.Sets (.publish tail) (some dir) s ∧ StagingOf x identity dir

variable {s₀ : Machine}

theorem Filling.others (o : s.Others t) (h : Filling x tail identity s₀ s) : Filling x tail identity s₀ t := by
  obtain ⟨rest, dir, sets, staging⟩ := h
  exact ⟨rest.others o, dir, sets.before o, staging⟩

theorem StagingOf.created {dir : Dir} {f : FileName} {inode : Nat} (h : StagingOf x identity dir)
    (allowed : f ∈ [FileName.program identity.role, .lease, .manifest, .transaction]) :
    StagingOf x identity (Function.update dir f (some ⟨[], inode⟩)) := by
  have old : ∀ g file, Function.update dir f (some ⟨[], inode⟩) g = some file →
      (g = f ∧ file.bytes = []) ∨ dir g = some file := by
    intro g file there
    by_cases same : g = f
    · subst same
      rw [Function.update_self] at there
      cases there
      exact .inl ⟨rfl, rfl⟩
    · rw [Function.update_of_ne same] at there
      exact .inr there
  refine ⟨h.schema, h.small, fun g file there => ?_, fun file there => ?_, fun file there => ?_⟩
  · rcases old g file there with ⟨rfl, _⟩ | there
    · exact allowed
    · exact h.files g file there
  · rcases old _ file there with ⟨_, nil⟩ | there
    · exact .inl nil
    · exact h.transaction file there
  · rcases old _ file there with ⟨_, nil⟩ | there
    · exact .inl nil
    · exact h.manifest file there

theorem StagingOf.written {file : File} {bytes : Bytes} (h : StagingOf x identity dir) (there : dir f = some file)
    (content : f = .transaction ∨ f = .manifest → bytes = x.toVec identity) :
    StagingOf x identity (Function.update dir f (some ⟨bytes, file.inode⟩)) := by
  have old : ∀ g file', Function.update dir f (some ⟨bytes, file.inode⟩) g = some file' →
      (g = f ∧ file'.bytes = bytes) ∨ dir g = some file' := by
    intro g file' there'
    by_cases same : g = f
    · subst same
      rw [Function.update_self] at there'
      cases there'
      exact .inl ⟨rfl, rfl⟩
    · rw [Function.update_of_ne same] at there'
      exact .inr there'
  refine ⟨h.schema, h.small, fun g file' there' => ?_, fun file' there' => ?_, fun file' there' => ?_⟩
  · rcases old g file' there' with ⟨rfl, _⟩ | there'
    · exact h.files g file there
    · exact h.files g file' there'
  · rcases old _ file' there' with ⟨same, written⟩ | there'
    · exact .inr (written.trans (content (.inl same.symm)))
    · exact h.transaction file' there'
  · rcases old _ file' there' with ⟨same, written⟩ | there'
    · exact .inr (written.trans (content (.inr same.symm)))
    · exact h.manifest file' there'

/-- Each of the calls that fill a staging directory leaves it one. -/
theorem fills_filling {c : Call} {r : Except Fault (Reply c)} (kind : c.Fills x tail identity)
    (h : Filling x tail identity s₀ s) (does : s.MayDo F p c r t) : Filling x tail identity s₀ t := by
  obtain ⟨rest, dir, sets, staging⟩ := h
  have at_ : s.dirs (.publish tail) = some dir := sets.self
  have still : Filling x tail identity s₀ s := ⟨rest, dir, sets, staging⟩
  rcases does with does | ⟨_, rfl, _⟩
  · rcases kind with reads | ⟨f, allowed, rfl⟩ | ⟨f, bytes, content, rfl⟩ | rfl
    · rw [reads_same (F := F) reads (.inl does)]
      exact still
    · rcases Machine.does_create does with ⟨dir', at', _, _, rfl⟩ | ⟨_, rfl⟩
      · rw [at_] at at'
        cases at'
        have sets' : s.Sets (.publish tail)
            (some (Function.update dir f (some ⟨[], s.inodes⟩)))
            { s.setDir (.publish tail) (some (Function.update dir f (some ⟨[], s.inodes⟩))) with
              inodes := s.inodes + 1 } := ⟨rfl, rfl, rfl⟩
        have created := @StagingOf.created x identity dir f s.inodes staging allowed
        exact ⟨rest.published sets' (rest.inodes.created at_ sets' rfl) ⟨identity, created⟩, _,
          sets.trans sets', created⟩
      · exact still
    · rcases Machine.does_write does with ⟨dir', file, at', there, _, rfl⟩ | ⟨_, rfl⟩
      · rw [at_] at at'
        cases at'
        have sets' := Machine.Sets.of_setDir s (.publish tail)
          (some (Function.update dir f (some ⟨bytes, file.inode⟩)))
        have written := staging.written there content
        refine ⟨rest.sets at_ sets' (Nat.le_refl _) ⟨identity, written⟩ fun g file' there' => ?_, _,
          sets.trans sets', written⟩
        by_cases same : g = f
        · subst same
          rw [Function.update_self] at there'
          cases there'
          exact ⟨file, there, rfl⟩
        · rw [Function.update_of_ne same] at there'
          exact ⟨file', there', rfl⟩
      · exact still
    · rcases Machine.does_removeFile does with ⟨dir', file, at', _, _, rfl⟩ | ⟨_, _, rfl⟩
      · rw [at_] at at'
        cases at'
        have sets' := Machine.Sets.of_setDir s (.publish tail)
          (some (Function.update dir .transaction none))
        have within := Dir.within_remove dir .transaction
        exact ⟨rest.sets at_ sets' (Nat.le_refl _) ⟨identity, staging.within within⟩
          fun g file' there' => ⟨file', within.some there', rfl⟩, _, sets.trans sets', staging.within within⟩
      · exact still
  · exact still

/-- A program of such calls. -/
theorem filling_holds {α : Type} {op : Op α} (calls : op.Calls (Call.Fills x tail identity))
    (h : Filling x tail identity s₀ s) : op.Holds (recovery x F p) (fun _ t => Filling x tail identity s₀ t) s := by
  have step : ∀ {c : Call} {s t : Machine} {r : Except Fault (Reply c)},
      c.Fills x tail identity → Filling x tail identity s₀ s →
      (recovery x F p).does c s r t → True ∧ Filling x tail identity s₀ t :=
    fun kind filling does => ⟨trivial, fills_filling kind filling does.1⟩
  exact Holds.of_calls (τ := recovery x F p) And.left Filling.others step calls h

theorem writeNew_fills {bytes : Bytes}
    (allowed : f ∈ [FileName.program identity.role, .lease, .manifest, .transaction])
    (content : f = .transaction ∨ f = .manifest → bytes = x.toVec identity) :
    (writeNew (.publish tail) f bytes).Calls (Call.Fills x tail identity) :=
  Calls.bind ((calls_sys _).2 (.inr (.inl ⟨f, allowed, rfl⟩))) fun _ =>
    (calls_sys _).2 (.inr (.inr (.inl ⟨f, bytes, content, rfl⟩)))

/-- A generation is published where there is none being collected; where the staging fails, its
directory is still one. -/
theorem staged_holds {copied : Bytes} (h : Filling x tail identity s₀ s) (vacant : ∀ id, s₀.dirs (.gc id) = none)
    (live : NoOrphans x s₀) : (staged x (.publish tail) identity copied).Holds (recovery x F p)
      (fun r t => (r = .ok () ∧ NoOrphans x t) ∨ ((∃ e, r = .error e) ∧ Filling x tail identity s₀ t)) s := by
  have filled : ∀ {α : Type} {op : Op α}, op.Calls (Call.Fills x tail identity) →
      ∀ {u : Machine}, Filling x tail identity s₀ u →
      op.Holds (recovery x F p) (fun _ t => Filling x tail identity s₀ t) u :=
    fun calls _ h => filling_holds calls h
  refine Holds.bind (filled (writeNew_fills (by simp) fun _ => rfl) h) (fun _ t₁ _ h => ?_)
    fun e _ _ h => .inr ⟨⟨e, rfl⟩, h⟩
  refine Holds.bind (filled (writeNew_fills (by simp) (by simp)) h) (fun _ t₂ _ h => ?_)
    fun e _ _ h => .inr ⟨⟨e, rfl⟩, h⟩
  refine Holds.bind (filled ((hashFile_reads x _ _).mono fun _ => .inl) h) (fun _ t₃ _ h => ?_)
    fun e _ _ h => .inr ⟨⟨e, rfl⟩, h⟩
  refine Holds.bind (filled (calls_require _ _) h) (fun _ t₄ _ h => ?_) fun e _ _ h => .inr ⟨⟨e, rfl⟩, h⟩
  refine Holds.bind (filled (writeNew_fills (by simp) fun _ => rfl) h) (fun _ t₅ _ h => ?_)
    fun e _ _ h => .inr ⟨⟨e, rfl⟩, h⟩
  refine Holds.bind (filled (writeNew_fills (by simp) (by simp)) h) (fun _ t₆ _ h => ?_)
    fun e _ _ h => .inr ⟨⟨e, rfl⟩, h⟩
  refine Holds.bind (filled ((calls_sys _).2 (.inr (.inr (.inr rfl)))) h) (fun _ t₇ _ h => ?_)
    fun e _ _ h => .inr ⟨⟨e, rfl⟩, h⟩
  refine ⟨h.1, fun t₈ r t₉ o does => ⟨trivial, ?_⟩⟩
  have h₈ := h.others o
  obtain ⟨rest, dir, sets, staging⟩ := h₈
  rcases does.1 with moved | ⟨_, rfl, _, rfl⟩
  · rcases Machine.does_rename moved with ⟨dir', at', _, rfl, rfl⟩ | ⟨failed, rfl⟩
    · rw [sets.self] at at'
      cases at'
      have gone := Machine.Sets.of_setDir t₈ (.publish tail) none
      have there := Machine.Sets.of_setDir (t₈.setDir (.publish tail) none)
        (.generation (identity.id x)) (some dir)
      refine ⟨rest.moves sets.self (Directory.publish_ne_generation _ _) gone there (Nat.le_refl _)
        trivial fun id => .inl ?_, .inl ⟨rfl, fun tail' dir' at' => ?_⟩⟩
      · rw [there.other (Directory.gc_ne_generation _ _),
          gone.other (Directory.publish_ne_gc _ _).symm, sets.other (Directory.publish_ne_gc _ _).symm]
        exact vacant id
      · rw [there.other (Directory.publish_ne_generation _ _)] at at'
        by_cases same : Directory.publish tail' = .publish tail
        · rw [same, gone.self] at at'
          cases at'
        · rw [gone.other same, sets.other same] at at'
          exact live tail' dir' at'
    · exact ⟨rest, .inr ⟨failed, rest, dir, sets, staging⟩⟩
  · exact ⟨rest, .inr ⟨⟨_, rfl⟩, rest, dir, sets, staging⟩⟩

end Publishing

section Operations

variable {x : Externals} {F : Call → Prop} {p : Pid} {s t : Machine}

/-- Calls that leave every directory as it is. -/
def Call.Quiet : Call → Prop
  | .createDir _ | .removeDir _ | .rename _ _ | .create _ _ | .write _ _ _ | .removeFile _ _ => False
  | _ => True

theorem reads_quiet (c : Call) (h : c.Reads) : c.Quiet := by
  cases c <;> trivial

theorem quiet_same {c : Call} {r : Except Fault (Reply c)} (quiet : c.Quiet)
    (h : s.MayDo F p c r t) : t.dirs = s.dirs ∧ t.inodes = s.inodes := by
  by_cases reads : c.Reads
  · rw [reads_same reads h]
    exact ⟨rfl, rfl⟩
  rcases h with h | ⟨_, rfl, _⟩
  · cases c with
    | take d identity =>
        rcases Machine.does_take h with ⟨_, _, _, rfl⟩ | ⟨_, rfl⟩ <;> exact ⟨rfl, rfl⟩
    | renameIndex index => rw [h.2]; exact ⟨rfl, rfl⟩
    | persistReservation id bytes =>
        rcases Machine.does_persistReservation h with ⟨_, rfl⟩ | ⟨_, rfl⟩ <;> exact ⟨rfl, rfl⟩
    | removeReservation id =>
        rcases Machine.does_removeReservation h with ⟨_, rfl⟩ | ⟨_, rfl⟩ <;> exact ⟨rfl, rfl⟩
    | _ => first | exact quiet.elim | exact (reads trivial).elim
  · exact ⟨rfl, rfl⟩

theorem Tame.same (dirs : t.dirs = s.dirs) (inodes : t.inodes = s.inodes) (h : Tame x s) : Tame x t where
  inodes := by
    refine h.inodes.moved id (fun d f file there => ⟨file, ?_, rfl⟩) (fun _ _ _ _ same => same)
      (Nat.le_of_eq inodes.symm)
    unfold Machine.file at there ⊢
    rw [dirs] at there
    exact there
  fits d dir at_ := h.fits d dir (dirs ▸ at_)
  exclusive id := by
    rw [dirs]
    exact h.exclusive id

theorem quiet_holds {α : Type} {op : Op α} (calls : op.Calls Call.Quiet) (rest : Tame x s)
    (live : NoOrphans x s) : op.Holds (recovery x F p) (fun _ t => NoOrphans x t) s := by
  have step : ∀ {c : Call} {s t : Machine} {r : Except Fault (Reply c)}, c.Quiet →
      Tame x s ∧ NoOrphans x s → (recovery x F p).does c s r t →
      True ∧ Tame x t ∧ NoOrphans x t := by
    intro c s t r quiet both does
    obtain ⟨dirs, inodes⟩ := quiet_same quiet does.1
    exact ⟨trivial, both.1.same dirs inodes, fun tail dir at_ => both.2 tail dir (dirs ▸ at_)⟩
  have stays : ∀ {s t : Machine}, s.Others t → Tame x s ∧ NoOrphans x s →
      Tame x t ∧ NoOrphans x t := fun o both => ⟨both.1.others o, both.2.others o⟩
  exact (Holds.of_calls (τ := recovery x F p) And.left stays step calls ⟨rest, live⟩).mono
    fun _ _ _ now => now.2

theorem index_reads : index.Calls Call.Reads := by
  refine Calls.attempt ((calls_sys _).2 trivial) fun r => ?_
  split
  · exact Calls.bind (calls_require _ _) fun _ => trivial
  · trivial
  · trivial

theorem identityAt_reads (id : Id) : (identityAt x id).Calls Call.Reads := by
  refine Calls.bind (readBounded_reads _ _ _) fun bytes => ?_
  refine Calls.bind (parse_reads x bytes) fun identity => ?_
  refine Calls.bind (calls_require _ _) fun _ => ?_
  refine Calls.bind ((calls_sys _).2 trivial) fun files => ?_
  refine Calls.bind (calls_require _ _) fun _ => ?_
  exact Calls.bind (calls_require _ _) fun _ => trivial

theorem holdId_quiet (id : Id) : (holdId x id).Calls Call.Quiet := by
  refine Calls.bind ((identityAt_reads id).mono reads_quiet) fun identity => ?_
  refine Calls.bind ((hashFile_reads x _ _).mono reads_quiet) fun observed => ?_
  exact Calls.bind (calls_require _ _) fun _ => (calls_sys _).2 trivial

/-- A staging directory is made. -/
theorem createDir_fills {tail : String} {identity : Identity} (rest : Tame x s)
    (schema : identity.schema = 1) (small : (x.toVec identity).length ≤ manifestLimit) :
    (sys (.createDir (.publish tail))).Holds (recovery x F p)
      (fun r t => (r = .ok () ∧ Filling x tail identity s t) ∨ ((∃ e, r = .error e) ∧ s.Others t))
      s := by
  refine ⟨rest, fun s' r t o does => ⟨trivial, ?_⟩⟩
  have rest' : Tame x s' := rest.others o
  rcases does.1 with made | ⟨_, rfl, _, rfl⟩
  · rcases Machine.does_createDir made with ⟨none_, rfl, rfl⟩ | ⟨failed, rfl⟩
    · have sets := Machine.Sets.of_setDir s' (.publish tail) (some Dir.empty)
      have staging : StagingOf x identity Dir.empty := ⟨schema, small, nofun, nofun, nofun⟩
      have inodes : Inodes (s'.setDir (.publish tail) (some Dir.empty)) := by
        refine rest'.inodes.moved id (fun d f file there => ?_) (fun _ _ _ _ same => same)
          (Nat.le_refl _)
        by_cases same : d = .publish tail
        · subst same
          simp [Machine.file, sets.self, Dir.empty] at there
        · exact ⟨file, by rw [sets.file same] at there; exact there, rfl⟩
      have tame := rest'.published sets inodes ⟨identity, staging⟩
      exact ⟨tame, .inl ⟨rfl, tame, _, sets.after o, staging⟩⟩
    · exact ⟨rest', .inr ⟨failed, o⟩⟩
  · exact ⟨rest', .inr ⟨⟨_, rfl⟩, o⟩⟩

variable (hF : ∀ c, F c → c.Grows)
include hF

/-- A publication that is not killed leaves no staging directory of its own. -/
theorem publishNew_live (lawful : x.Lawful) {r : Publication} {index : Index} (rest : Tame x s)
    (live : NoOrphans x s) (small : (x.toVec (r.identity x)).length ≤ manifestLimit) :
    (publishNew x r index).Holds (recovery x F p) (fun _ t => NoOrphans x t) s := by
  refine Holds.bind (collectLocked_finishes hF lawful rest live) (fun c t rest now => ?_)
    fun e t _ o => live.others o
  obtain ⟨ids, _, swept⟩ := now
  have vacant : ∀ id, t.dirs (.gc id) = none := fun id =>
    Option.not_isSome_iff_eq_none.1 fun there => nomatch (swept.present (.gc id) trivial).1 there
  refine (Looks.require rest _).andThen (fun _ u rest o _ => ?_) fun e u _ o => swept.live.others o
  refine Holds.bind (@createDir_fills x F p u r.random (r.identity x) rest rfl small)
    (fun _ v _ now => ?_) fun e v _ now => ?_
  · rcases now with ⟨_, filling⟩ | ⟨⟨_, failed⟩, _⟩
    · refine Holds.attempt ((staged_holds filling (fun id => o.dirs ▸ vacant id)
        (swept.live.others o)).mono fun result w rest now => ?_)
      rcases now with ⟨rfl, live⟩ | ⟨⟨e, rfl⟩, _, dir, sets, _⟩
      · exact ⟨rest, live⟩
      · refine Holds.attempt ((removeDirAll_sets hF rest sets.self).mono fun _ y rest now => ?_)
        exact ⟨rest, (swept.live.others o).removed (sets.trans now.2)⟩
    · cases failed
  · rcases now with ⟨failed, _⟩ | ⟨_, o'⟩
    · cases failed
    · exact (swept.live.others o).others o'

theorem collectLocked_live (lawful : x.Lawful) {index : Index} (rest : Tame x s) (live : NoOrphans x s) :
    (collectLocked x index).Holds (recovery x F p) (fun _ t => NoOrphans x t) s := by
  refine (collectLocked_finishes hF lawful rest live).mono fun r t _ now => ?_
  cases r with
  | ok c =>
      obtain ⟨_, _, swept⟩ := now
      exact swept.live
  | error e => exact live.others now

theorem stageLocked_live (lawful : x.Lawful) (r : Publication) (rest : Tame x s) (live : NoOrphans x s) :
    (stageLocked x r).Holds (recovery x F p) (fun _ t => NoOrphans x t) s := by
  refine (Looks.require rest _).andThen (fun _ t rest o sized => ?_) fun _ _ _ o => live.others o
  have small : (x.toVec (r.identity x)).length ≤ manifestLimit := by
    simp only [Bool.and_eq_true, decide_eq_true_eq] at sized
    exact sized.1
  have live := live.others o
  refine Holds.bind (quiet_holds (index_reads.mono reads_quiet) rest live)
    (fun index u rest live => ?_) fun _ _ _ live => live
  refine Holds.bind (quiet_holds ((calls_sys _).2 trivial) rest live)
    (fun published v rest live => ?_) fun _ _ _ live => live
  split
  · exact quiet_holds (holdId_quiet _) rest live
  · exact Holds.bind (publishNew_live hF lawful rest live small)
      (fun _ w rest live => quiet_holds (holdId_quiet _) rest live) fun _ _ _ live => live

theorem Request.live (lawful : x.Lawful) (request : Request) (rest : Tame x s) (live : NoOrphans x s) :
    (request.op x).Holds (recovery x F p) (fun _ t => NoOrphans x t) s := by
  cases request with
  | stage r =>
      exact Holds.bind (stageLocked_live hF lawful r rest live) (fun _ _ rest live => ⟨rest, live⟩)
        fun _ _ _ live => live
  | select image =>
      refine Holds.bind (quiet_holds (calls_require _ _) rest live) (fun _ t rest live => ?_)
        fun _ _ _ live => live
      refine Holds.bind (quiet_holds (index_reads.mono reads_quiet) rest live)
        (fun index u rest live => ?_) fun _ _ _ live => live
      refine Holds.bind (quiet_holds ((calls_sys _).2 trivial) rest live)
        (fun _ v rest live => ?_) fun _ _ _ live => live
      exact Holds.bind (collectLocked_live hF lawful rest live) (fun _ _ rest live => ⟨rest, live⟩)
        fun _ _ _ live => live
  | reserve image =>
      refine quiet_holds (Calls.bind (calls_require _ _) fun _ => ?_) rest live
      refine Calls.attempt ((calls_sys _).2 trivial) fun r => ?_
      split
      · exact Calls.bind ((calls_sys _).2 trivial) fun _ => calls_require _ _
      · trivial
  | release id =>
      refine quiet_holds ?_ rest live
      change (releaseReservation id).Calls Call.Quiet
      unfold releaseReservation
      split
      · refine Calls.attempt ((calls_sys _).2 trivial) fun r => ?_
        split
        · exact Calls.bind (calls_require _ _) fun _ => (calls_sys _).2 trivial
        · trivial
        · trivial
      · trivial
  | hold id =>
      refine quiet_holds (Calls.bind ?_ fun _ => trivial) rest live
      unfold holdLocked
      split
      · exact holdId_quiet _
      · trivial
  | collect =>
      refine Holds.bind (Holds.bind (quiet_holds (index_reads.mono reads_quiet) rest live)
        (fun index u rest live => collectLocked_live hF lawful rest live) fun _ _ _ live => live)
        (fun _ _ rest live => ⟨rest, live⟩) fun _ _ _ live => live

end Operations

/-- A step that does not kill the holder of the catalog while a staging directory has files but no
metadata that can be read. -/
def Gentle (x : Externals) (w w' : World) : Prop :=
  World.Step x Call.Grows w w' ∧
    ∀ p c next, w.catalog = some (p, .call c next) → w'.catalog = none → NoOrphans x w.machine

/-- Between operations no staging directory is orphaned, and whoever holds the catalog sees to that. -/
structure Steady (x : Externals) (w : World) : Prop where
  kept : w.Kept x
  tame : Tame x w.machine
  idle : w.catalog = none → NoOrphans x w.machine
  holder : ∀ p op, w.catalog = some (p, op) →
    op.Holds (recovery x Call.Grows p) (fun _ t => NoOrphans x t) w.machine

theorem Steady.others {t : Machine} (h : Steady x w) (o : w.machine.Others t) : Steady x ⟨t, w.catalog⟩ where
  kept := h.kept.others o
  tame := h.tame.others o
  idle free := (h.idle free).others o
  holder p op at_ := (h.holder p op at_).others (fun _ _ _ o live => NoOrphans.others o live) o

theorem Steady.step {x : Externals} (lawful : x.Lawful) {w w' : World} (h : Steady x w)
    (gentle : Gentle x w w') : Steady x w' := by
  obtain ⟨step, kills⟩ := gentle
  have kept := (h.kept.step (step.mono fun _ _ => trivial)).1
  cases step with
  | start request free permitted =>
      refine ⟨kept, h.tame, nofun, fun q op at_ => ?_⟩
      cases at_
      exact request.live (fun _ grows => grows) lawful h.tame (h.idle free)
  | @call p c next answer t holder does =>
      have after := ((h.holder _ _ holder).2 _ _ _ (.refl _) ⟨does, h.kept.sound, kept.sound⟩).2
      refine ⟨kept, after.rest, nofun, fun q op at_ => ?_⟩
      cases at_
      exact after
  | finish holder => exact ⟨kept, h.tame, fun _ => (h.holder _ _ holder).2, nofun⟩
  | others o => exact h.others o
  | kill p =>
      have moved := h.others (World.exits_others p w.machine)
      refine ⟨kept, moved.tame, fun free => ?_, fun q op at_ => ?_⟩
      · refine NoOrphans.others (World.exits_others p w.machine) ?_
        match holder : w.catalog with
        | none => exact h.idle holder
        | some (q, .ended r) => exact (h.holder _ _ holder).2
        | some (q, .call c next) => exact kills q c next holder free
      · exact moved.holder q op (Option.filter_eq_some_iff.1 at_).1

theorem Steady.init (x : Externals) : Steady x .init where
  kept := .init x
  tame := ⟨⟨nofun, nofun⟩, nofun, fun _ => .inl rfl⟩
  idle _ := nofun
  holder := nofun

theorem Steady.reached (lawful : x.Lawful) (run : Relation.ReflTransGen (Gentle x) .init w) : Steady x w := by
  induction run with
  | refl => exact .init x
  | tail _ gentle ih => exact ih.step lawful gentle

/-- A collection left to run to its end, with calls that only fail for cause. -/
def Collects (x : Externals) (p : Pid) (s : Machine) (c : Collection) (t : Machine) : Prop :=
  (collect x).Ends (fun call s answer t => s.MayDo (fun _ => False) p call answer t) Machine.Others s
    (.ok c) t

/-- What interrupted publications and collections left is gone and was not reported as unknown; a
generation is gone only where it is reported as removed and neither the index nor a reservation names
it. -/
structure Finished (s : Machine) (c : Collection) (t : Machine) : Prop where
  staging : ∀ tail, t.dirs (.publish tail) = none
  tombs : ∀ id, t.dirs (.gc id) = none
  staging_known : ∀ tail, .publish tail ∉ c.unknown
  tombs_known : ∀ id, .gc id ∉ c.unknown
  generations : ∀ id, t.dirs (.generation id) = s.dirs (.generation id) ∨
    (.generation id ∈ c.removed ∧ ¬ s.Indexed id ∧ ¬ s.Reserved id)

theorem collect_finishes (lawful : x.Lawful) {p : Pid} {s : Machine} (rest : Tame x s) (live : NoOrphans x s) :
    (collect x).Holds (recovery x (fun _ => False) p) (fun r t => ∀ c, r = .ok c → Finished s c t)
      s := by
  refine (looks_index (onRecovery x _ p) rest).andThen (fun index t rest o found => ?_)
    fun _ _ _ _ => nofun
  refine (collectLocked_finishes (fun _ => False.elim) lawful rest (live.others o)).mono
    fun r u _ now c same => ?_
  subst same
  obtain ⟨ids, named, swept⟩ := now
  have gone : ∀ d : Directory, d.Aside → u.dirs d = none := fun d aside =>
    Option.not_isSome_iff_eq_none.1 fun there => nomatch (swept.present d aside).1 there
  refine ⟨fun tail => gone _ trivial, fun id => gone _ trivial,
    fun tail mem => swept.unknown _ mem trivial, fun id mem => swept.unknown _ mem trivial, fun id => ?_⟩
  refine (swept.kept id).imp (fun same => by rw [same, o.dirs]) fun now => ⟨now.1, ?_, ?_⟩
  · exact fun indexed => now.2 (named id (.inl ((found.2 id).1 indexed)))
  · intro reserved
    refine now.2 (named id (.inr ?_))
    unfold Machine.Reserved at *
    rwa [o.reservations]

/-- In every run without such a kill, the next collection finishes what was interrupted. -/
theorem interrupted_work_is_finished {x : Externals} (lawful : x.Lawful) {w : World}
    (run : Relation.ReflTransGen (Gentle x) .init w) (free : w.catalog = none) {p : Pid} {c : Collection}
    {t : Machine} (collects : Collects x p w.machine c t) : Finished w.machine c t := by
  have steady := Steady.reached lawful run
  have within := Holds.ends_within (τ := terms x p)
    (fun does => does.imp_right fun fault => ⟨trivial, fault.2⟩) collects
    (collect_holds steady.kept.sound)
  exact Holds.ends (τ := recovery x (fun _ => False) p) within
    (collect_finishes lawful steady.tame (steady.idle free)) c rfl

/-- The store with one staging directory that holds nothing but a transaction. -/
def withTransaction (bytes : Bytes) : Machine :=
  { Machine.init.setDir (.publish "a")
      (some (Function.update Dir.empty .transaction (some ⟨bytes, 0⟩))) with inodes := 1 }

theorem has_withTransaction (bytes : Bytes) (e : Entry) :
    e ∈ [Entry.directory (.publish "a")] ↔ (withTransaction bytes).Has e := by
  cases e with
  | directory d =>
      by_cases same : d = .publish "a"
      · subst same
        simp [withTransaction, Machine.Has, Machine.setDir]
      · simp [withTransaction, Machine.Has, Machine.setDir, Machine.init, same]
  | reservation id => simp [withTransaction, Machine.Has, Machine.setDir, Machine.init]

theorem files_withTransaction (file : File) (f : FileName) :
    f ∈ [FileName.transaction] ↔ (Function.update Dir.empty .transaction (some file) f).isSome := by
  by_cases same : f = .transaction
  · subst same
    simp
  · simp [same, Dir.empty]

theorem first_random : firstPublication.random = "a" := rfl

theorem first_manifest : plain.toVec (firstPublication.identity plain) = [1] := rfl

theorem plain_lawful : plain.Lawful where
  roundTrip identity small := by
    by_cases same : identity = plainIdentity
    · subst same
      rfl
    · have long : (plain.toVec identity).length = manifestLimit + 1 := by
        change (if identity = plainIdentity then [1]
          else List.replicate (manifestLimit + 1) 0).length = manifestLimit + 1
        rw [if_neg same]
        exact List.length_replicate
      omega
  empty := rfl

/-- Killed between creating the transaction and writing it, a publication leaves a directory that a
collection reports as unknown and keeps. -/
theorem unwritten_transaction_stays :
    ¬ ∀ w, World.Reaches plain Call.Grows .init w → w.catalog = none →
      ∀ p c t, Collects plain p w.machine c t → Finished w.machine c t := by
  intro claim
  have none_yet : ∀ e, e ∈ ([] : List Entry) ↔ Machine.init.Has e := by
    intro e
    cases e <;> simp [Machine.Has, Machine.init]
  have run : ∃ w, World.Reaches plain Call.Grows .init w ∧ w = ⟨withTransaction [], none⟩ := by
    refine (World.Step.start (p := 1) (.stage firstPublication) rfl trivial).first ?_
    refine World.Step.first (.call rfl (.inl ⟨rfl, rfl⟩)) ?_
    refine World.Step.first (.call rfl (.inl ⟨rfl, rfl⟩)) ?_
    refine World.Step.first (.call rfl (.inl ⟨rfl, [], rfl, List.nodup_nil, none_yet⟩)) ?_
    refine World.Step.first (.call rfl (.inl ⟨rfl, [], rfl, List.nodup_nil, none_yet⟩)) ?_
    refine World.Step.first (.call rfl (.inl ⟨rfl, rfl⟩)) ?_
    refine World.Step.first (.call rfl (.inl ⟨rfl, rfl⟩)) ?_
    refine World.Step.first (.kill 1) ?_
    refine ⟨_, .refl, ?_⟩
    simp [withTransaction, firstPublication, World.exits, Machine.setDir, World.init, Machine.init]
  obtain ⟨w, reached, rfl⟩ := run
  have collects : Collects plain 2 (withTransaction []) ⟨[], [], [.publish "a"]⟩
      (withTransaction []) := by
    refine .call (.refl _) (.inl ⟨rfl, rfl⟩) ?_
    refine .call (.refl _) (.inl ⟨rfl, _, rfl, List.pairwise_singleton _ _, has_withTransaction []⟩) ?_
    refine .call (.refl _) (.inl ⟨rfl, _, rfl, List.pairwise_singleton _ _, has_withTransaction []⟩) ?_
    refine .call (.refl _) (.inl ⟨rfl, _, rfl, List.pairwise_singleton _ _, files_withTransaction _⟩) ?_
    refine .call (.refl _) (.inl ⟨rfl, rfl⟩) ?_
    exact .ended _ _
  exact (claim _ reached rfl _ _ _ collects).staging_known "a" List.mem_cons_self

/-- A step that keeps the catalog held, or takes it, is gentle. -/
theorem Gentle.held {w' : World} (step : World.Step x Call.Grows w w') (held : w'.catalog.isSome) :
    Gentle x w w' := by
  refine ⟨step, fun p c next _ free => ?_⟩
  rw [free] at held
  cases held

theorem Gentle.first {P : World → Prop} {v : World} (step : Gentle x w v)
    (rest : ∃ u, Relation.ReflTransGen (Gentle x) v u ∧ P u) : ∃ u, Relation.ReflTransGen (Gentle x) w u ∧ P u := by
  obtain ⟨u, run, holds⟩ := rest
  exact ⟨u, .head step run, holds⟩

theorem written_transaction_live : NoOrphans plain (withTransaction [1]) := by
  intro tail dir at_ orphaned
  by_cases same : Directory.publish tail = .publish "a"
  · rw [same] at at_
    simp only [withTransaction, Machine.setDir, Function.update_self, Option.some.injEq] at at_
    subst at_
    have := orphaned.2 ⟨[1], 0⟩ (by simp [Dir.metadata])
    cases this
  · simp [withTransaction, Machine.setDir, Machine.init, Function.update, same] at at_

/-- Killed right after the transaction is written, a publication is taken away. -/
theorem written_transaction_goes :
    ∃ c t, Collects plain 2 (withTransaction [1]) c t ∧ Finished (withTransaction [1]) c t := by
  have none_yet : ∀ e, e ∈ ([] : List Entry) ↔ Machine.init.Has e := by
    intro e
    cases e <;> simp [Machine.Has, Machine.init]
  have run : ∃ w, Relation.ReflTransGen (Gentle plain) .init w ∧
      (w.machine = withTransaction [1] ∧ ∃ op, w.catalog = some (1, op)) := by
    refine Gentle.first (.held (.start (p := 1) (.stage firstPublication) rfl trivial) rfl) ?_
    refine Gentle.first (.held (.call rfl (.inl ⟨rfl, rfl⟩)) rfl) ?_
    refine Gentle.first (.held (.call rfl (.inl ⟨rfl, rfl⟩)) rfl) ?_
    refine Gentle.first (.held (.call rfl (.inl ⟨rfl, [], rfl, List.nodup_nil, none_yet⟩)) rfl) ?_
    refine Gentle.first (.held (.call rfl (.inl ⟨rfl, [], rfl, List.nodup_nil, none_yet⟩)) rfl) ?_
    refine Gentle.first (.held (.call rfl (.inl ⟨rfl, rfl⟩)) rfl) ?_
    refine Gentle.first (.held (.call rfl (.inl ⟨rfl, rfl⟩)) rfl) ?_
    refine Gentle.first (.held (.call rfl (.inl ⟨rfl, rfl⟩)) rfl) ?_
    refine ⟨_, .refl, ?_, _, rfl⟩
    simp [withTransaction, first_random, first_manifest, Machine.setDir, World.init, Machine.init]
  obtain ⟨w, reached, machine, op, holder⟩ := run
  have killed : Gentle plain w ⟨withTransaction [1], none⟩ := by
    refine ⟨?_, fun p c next _ _ => machine ▸ written_transaction_live⟩
    have step := World.Step.kill (x := plain) (F := Call.Grows) (w := w) 1
    rw [machine, holder] at step
    exact step
  have collects : Collects plain 2 (withTransaction [1]) .empty
      (((withTransaction [1]).setDir (.publish "a") (some (Function.update (Function.update Dir.empty
        .transaction (some ⟨[1], 0⟩)) .transaction none))).setDir (.publish "a") none) := by
    refine .call (.refl _) (.inl ⟨rfl, rfl⟩) ?_
    refine .call (.refl _) (.inl ⟨rfl, _, rfl, List.pairwise_singleton _ _, has_withTransaction _⟩) ?_
    refine .call (.refl _) (.inl ⟨rfl, _, rfl, List.pairwise_singleton _ _, has_withTransaction _⟩) ?_
    refine .call (.refl _) (.inl ⟨rfl, _, rfl, List.pairwise_singleton _ _, files_withTransaction _⟩) ?_
    refine .call (.refl _) (.inl ⟨rfl, rfl⟩) ?_
    refine .call (.refl _) (.inl ⟨rfl, _, rfl, List.pairwise_singleton _ _, files_withTransaction _⟩) ?_
    refine .call (.refl _) (.inl ⟨rfl, _, rfl, List.pairwise_singleton _ _, files_withTransaction _⟩) ?_
    refine .call (.refl _) (.inl ⟨rfl, rfl⟩) ?_
    refine .call (.refl _) (.inl (.inl ⟨?_, rfl, rfl⟩)) ?_
    · have empty : Function.update (Function.update Dir.empty .transaction (some ⟨[1], 0⟩))
          .transaction none = Dir.empty := by
        rw [Function.update_idem]
        exact Function.update_eq_self .transaction Dir.empty
      exact empty
    exact .ended _ _
  exact ⟨_, _, collects, interrupted_work_is_finished plain_lawful (reached.tail killed) rfl collects⟩

end Khor.Runtime
