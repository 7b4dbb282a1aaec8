/-
Module: Khor.Update.Keepers
Purpose: What every process at a download stage knows of it while the others work, and what no two processes
  at one stage are at the same time. Every permitted event keeps both.
Trusted boundary: none
Main exports: Sound, Downloader.Local, One.Local, Inv, Inv.step
-/
import Khor.Update.Stage

namespace Khor.Update

variable {R : Type} {x : Externals R} {base : Nat} {disk disk' : Disk} {X Y name other : String} {p q : Pid} {d : Dir}

/-! ### What the calls make of the disk -/

namespace Disk

theorem dir?_setDir : (disk.setDir X d).dir? X = some d := by
  unfold dir? setDir
  rw [AList.lookup_insert]

theorem dir?_setDir_ne (h : Y ≠ X) : (disk.setDir X d).dir? Y = disk.dir? Y := by
  unfold dir? setDir
  rw [AList.lookup_insert_ne h]

theorem dir?_rmdir : (disk.rmdir X).dir? X = none := by
  unfold dir? rmdir
  rw [AList.lookup_erase]

theorem dir?_rmdir_ne (h : Y ≠ X) : (disk.rmdir X).dir? Y = disk.dir? Y := by
  unfold dir? rmdir
  rw [AList.lookup_erase_ne h]

theorem file?_of_dir? (h : disk.dir? X = some d) : disk.file? X name = d.files.lookup name := by
  unfold file?
  rw [h]
  rfl

theorem file?_of_none (h : disk.dir? X = none) : disk.file? X name = none := by
  unfold file?
  rw [h]
  rfl

theorem file?_congr (h : disk'.dir? Y = disk.dir? X) : disk'.file? Y name = disk.file? X name := by
  unfold file?
  rw [h]

theorem dir?_chmod (h : disk.dir? X = some d) : (disk.chmod X).dir? X = some { d with isPrivate := true } := by
  unfold chmod
  rw [h]
  exact dir?_setDir

theorem dir?_mkdir {isPrivate : Bool} : (disk.mkdir X isPrivate).dir? X = some ⟨disk.nodes, isPrivate, ∅⟩ :=
  dir?_setDir

theorem dir?_create (h : disk.dir? X = some d) :
    (disk.create X name).dir? X = some { d with files := d.files.insert name ⟨disk.nodes, true⟩ } := by
  unfold create
  rw [h]
  exact dir?_setDir

theorem dir?_unlink (h : disk.dir? X = some d) :
    (disk.unlink X name).dir? X = some { d with files := d.files.erase name } := by
  unfold unlink
  rw [h]
  exact dir?_setDir

theorem file?_create (h : disk.dir? X = some d) :
    (disk.create X name).file? X other = if other = name then some ⟨disk.nodes, true⟩ else disk.file? X other := by
  rw [file?_of_dir? (dir?_create h), file?_of_dir? h]
  by_cases same : other = name
  · rw [if_pos same, same]
    exact AList.lookup_insert _
  · rw [if_neg same]
    exact AList.lookup_insert_ne same

theorem file?_unlink : (disk.unlink X name).file? X other = if other = name then none else disk.file? X other := by
  cases h : disk.dir? X with
  | none =>
      have same : disk.unlink X name = disk := by
        unfold unlink
        rw [h]
      rw [same, file?_of_none h, ite_self]
  | some d =>
      rw [file?_of_dir? (dir?_unlink h), file?_of_dir? h]
      by_cases same : other = name
      · rw [if_pos same, same]
        exact AList.lookup_erase _ _
      · rw [if_neg same]
        exact AList.lookup_erase_ne same

theorem data_create (h : disk.dir? X = some d) :
    (disk.create X name).data = fun node => if node = disk.nodes then [] else disk.data node := by
  unfold create
  rw [h]

theorem nodes_create (h : disk.dir? X = some d) : (disk.create X name).nodes = disk.nodes + 1 := by
  unfold create
  rw [h]

theorem locks_create : (disk.create X name).locks = disk.locks := by
  unfold create
  split <;> rfl

theorem locks_chmod : (disk.chmod X).locks = disk.locks := by
  unfold chmod
  split <;> rfl

theorem locks_unlink : (disk.unlink X name).locks = disk.locks := by
  unfold unlink
  split <;> rfl

theorem data_unlink : (disk.unlink X name).data = disk.data := by
  unfold unlink
  split <;> rfl

theorem data_chmod : (disk.chmod X).data = disk.data := by
  unfold chmod
  split <;> rfl

theorem nodes_unlink : (disk.unlink X name).nodes = disk.nodes := by
  unfold unlink
  split <;> rfl

theorem nodes_chmod : (disk.chmod X).nodes = disk.nodes := by
  unfold chmod
  split <;> rfl

theorem dir?_unlink_ne (h : Y ≠ X) : (disk.unlink X name).dir? Y = disk.dir? Y := by
  unfold unlink
  split
  · exact dir?_setDir_ne h
  · rfl

theorem dir?_chmod_ne (h : Y ≠ X) : (disk.chmod X).dir? Y = disk.dir? Y := by
  unfold chmod
  split
  · exact dir?_setDir_ne h
  · rfl

theorem dir?_create_ne (h : Y ≠ X) : (disk.create X name).dir? Y = disk.dir? Y := by
  unfold create
  split
  · exact dir?_setDir_ne h
  · rfl

theorem dir?_mkdir_ne {isPrivate : Bool} (h : Y ≠ X) : (disk.mkdir X isPrivate).dir? Y = disk.dir? Y :=
  dir?_setDir_ne h

end Disk

/-! ### What a process at a stage does to the disk -/

/-- The calls of a process `p` at `X`, one by one. -/
inductive Op (p : Pid) (X : String) (disk : Disk) : Disk → Prop
  | none : Op p X disk disk
  | mkdir (isPrivate : Bool) (free : disk.dir? X = none) : Op p X disk (disk.mkdir X isPrivate)
  | chmod {d : Dir} (there : disk.dir? X = some d) : Op p X disk (disk.chmod X)
  | create {d : Dir} {name : String} (there : disk.dir? X = some d) (free : disk.file? X name = Option.none) :
      Op p X disk (disk.create X name)
  | append {name : String} {file piece} (there : disk.file? X name = some file) : Op p X disk (disk.append file.node piece)
  | unlink (name : String) : Op p X disk (disk.unlink X name)
  | rmdir : Op p X disk (disk.rmdir X)
  | lock {node} (free : disk.locks node = Option.none) : Op p X disk (disk.lock node p)
  | unlock (node : Nat) : Op p X disk (disk.unlock node p)

namespace Op

section

variable (op : Op p X disk disk')
include op

theorem dir? (ne : Y ≠ X) : disk'.dir? Y = disk.dir? Y := by
  cases op with
  | mkdir => exact Disk.dir?_mkdir_ne ne
  | chmod => exact Disk.dir?_chmod_ne ne
  | create => exact Disk.dir?_create_ne ne
  | unlink => exact Disk.dir?_unlink_ne ne
  | rmdir => exact Disk.dir?_rmdir_ne ne
  | none | append | lock | unlock => rfl

theorem file?_ne (ne : Y ≠ X) : disk'.file? Y name = disk.file? Y name :=
  Disk.file?_congr (op.dir? ne)

theorem nodes : disk.nodes ≤ disk'.nodes := by
  cases op with
  | mkdir => exact Nat.le_succ _
  | chmod => exact Nat.le_of_eq Disk.nodes_chmod.symm
  | create there =>
      rw [Disk.nodes_create there]
      exact Nat.le_succ _
  | unlink => exact Nat.le_of_eq Disk.nodes_unlink.symm
  | none | append | rmdir | lock | unlock => exact Nat.le_refl _

/-- A file at the stage was there before, or it is new. -/
theorem file? {file : File} (there : disk'.file? X name = some file) :
    disk.file? X name = some file ∨
      file.node = disk.nodes ∧ disk.nodes < disk'.nodes ∧ disk.file? X name = Option.none ∧
        ∀ other f, disk'.file? X other = some f → other = name ∨ disk.file? X other = some f := by
  cases op with
  | none | append | lock | unlock => exact .inl there
  | mkdir =>
      rw [Disk.file?_of_dir? Disk.dir?_mkdir, AList.lookup_empty] at there
      cases there
  | chmod was =>
      rw [Disk.file?_of_dir? (Disk.dir?_chmod was)] at there
      exact .inl ((Disk.file?_of_dir? was).trans there)
  | create was free =>
      rw [Disk.file?_create was] at there
      split at there
      · rename_i same
        cases there
        subst same
        refine .inr ⟨rfl, ?_, free, fun other f found => ?_⟩
        · rw [Disk.nodes_create was]
          exact Nat.lt_succ_self _
        · rw [Disk.file?_create was] at found
          split at found
          · exact .inl ‹_›
          · exact .inr found
      · exact .inl there
  | unlink =>
      rw [Disk.file?_unlink] at there
      split at there
      · cases there
      · exact .inl there
  | rmdir =>
      rw [Disk.file?_of_none Disk.dir?_rmdir] at there
      cases there

/-- Contents change only in the files of the stage. -/
theorem data {node : Nat} (old : node < disk.nodes)
    (elsewhere : ∀ name file, disk.file? X name = some file → file.node ≠ node) :
    disk'.data node = disk.data node := by
  cases op with
  | none | mkdir | rmdir | lock | unlock => rfl
  | chmod => rw [Disk.data_chmod]
  | unlink => rw [Disk.data_unlink]
  | create there =>
      rw [Disk.data_create there]
      exact if_neg (by omega)
  | append there => exact if_neg fun same => elsewhere _ _ there same.symm

theorem locks {node : Nat} (ne : q ≠ p) : disk'.locks node = some q ↔ disk.locks node = some q := by
  cases op with
  | none | append | mkdir | rmdir => exact Iff.rfl
  | chmod => rw [Disk.locks_chmod]
  | unlink => rw [Disk.locks_unlink]
  | create => rw [Disk.locks_create]
  | @lock other free =>
      simp only [Disk.lock]
      split
      · rename_i same
        rw [same, free]
        exact ⟨fun same => absurd (Option.some.inj same).symm ne, nofun⟩
      · exact Iff.rfl
  | unlock other =>
      simp only [Disk.unlock]
      split
      · rename_i same
        rw [same.1, same.2]
        exact ⟨nofun, fun same => absurd (Option.some.inj same).symm ne⟩
      · exact Iff.rfl

end

end Op

/-! ### What a process knows -/

def Private (disk : Disk) (X : String) : Prop := ∃ d, disk.dir? X = some d ∧ d.isPrivate = true

/-- The stage is one that a collector takes. -/
structure Sound (x : Externals R) (base : Nat) (disk : Disk) (X : String) : Prop where
  isPrivate : Private disk X
  owner : ∃ record release, disk.file? X "owner.json" = some ⟨record, true⟩ ∧ x.restore release = true ∧
    (x.toVec ⟨1, X, release⟩).length ≤ RECORD_LIMIT ∧ disk.data record = x.toVec ⟨1, X, release⟩
  lease : ∃ node, disk.file? X "lease" = some ⟨node, true⟩
  known : ∀ name file, disk.file? X name = some file → name ∈ FILES ∧ file.regular = true ∧ base ≤ file.node

/-- The lease and nothing else. -/
def onlyLease (node : Nat) (name : String) : Option File :=
  if name = "lease" then some ⟨node, true⟩ else none

namespace Downloader

/-- The stage a downloader has made. -/
def at_ : Downloader R → Option String
  | tempdir _ => none
  | permissions X _ | openLease X _ | lockLease X _ _ | openRecord X _ _ | write X _ _ _ | staged X _ | close X _ | list X
  | clear X _ | rmdir X => some X

/-- The lease is closed, and the directory is on its way out. -/
def leaving : Downloader R → Bool
  | list _ | clear _ _ | rmdir _ => true
  | _ => false

def handle : Downloader R → Option Nat
  | openRecord _ _ node | write _ node _ _ | staged _ node | close _ node => some node
  | _ => none

/-- What a downloader knows of its stage. -/
def Local (x : Externals R) (base : Nat) (p : Pid) (disk : Disk) : Downloader R → Prop
  | tempdir release => x.restore release = true
  | permissions X release =>
      x.restore release = true ∧ (∃ d, disk.dir? X = some d) ∧ ∀ name, disk.file? X name = none
  | openLease X release => x.restore release = true ∧ Private disk X ∧ ∀ name, disk.file? X name = none
  | lockLease X release node =>
      x.restore release = true ∧ Private disk X ∧ base ≤ node ∧ ∀ name, disk.file? X name = onlyLease node name
  | openRecord X release node =>
      x.restore release = true ∧ Private disk X ∧ base ≤ node ∧ (∀ name, disk.file? X name = onlyLease node name) ∧
        disk.locks node = some p
  | write X node record left =>
      Private disk X ∧ base ≤ node ∧ base ≤ record ∧
        (∀ name, disk.file? X name =
          if name = "owner.json" then some ⟨record, true⟩ else onlyLease node name) ∧
        disk.locks node = some p ∧ ∃ release, x.restore release = true ∧
          (x.toVec ⟨1, X, release⟩).length ≤ RECORD_LIMIT ∧ disk.data record ++ left = x.toVec ⟨1, X, release⟩
  | staged X node => Sound x base disk X ∧ disk.file? X "lease" = some ⟨node, true⟩ ∧ disk.locks node = some p
  | close X node => base ≤ node ∧ disk.file? X "lease" = some ⟨node, true⟩ ∧
      (disk.locks node = some p ∨ disk.file? X "owner.json" = none)
  | list _ => True
  | clear X names => ∀ name, (disk.file? X name).isSome → name ∈ names
  | rmdir X => ∀ name, disk.file? X name = none

end Downloader

/-- A collector's handle of a lease: the lease of the stage, if there is one, is that file, and no other stage has it. -/
structure Handle (base : Nat) (disk : Disk) (X : String) (node : Nat) : Prop where
  old : node < disk.nodes
  lease : ∀ file, disk.file? X "lease" = some file → file.node = node
  only : ∀ Y name file, disk.file? Y name = some file → file.node = node → node < base ∨ Y = X

/-- Of the known files, only these can still be there. -/
def Left (disk : Disk) (X : String) (names : List String) : Prop :=
  ∀ name ∈ FILES, (disk.file? X name).isSome → name ∈ names

namespace One

/-- The collector has seen a record in the stage. -/
def inHand : One → Bool
  | metadata | list | sizes _ _ | recordMetadata _ | recordOpen _ => false
  | _ => true

/-- The collector has had the lease. -/
def entered : One → Bool
  | assets _ _ _ | record _ _ | drop _ _ | lease _ | rmdir _ => true
  | _ => false

/-- The collector has removed the record. -/
def last : One → Bool
  | drop _ _ | lease _ | rmdir _ => true
  | _ => false

def handle : One → Option Nat
  | assets _ node _ | record node _ | drop node _ => some node
  | _ => none

/-- What a collector knows of a stage. -/
def Local (base : Nat) (p : Pid) (disk : Disk) (X : String) : One → Prop
  | tryLock node _ => Handle base disk X node
  | assets names node _ =>
      Handle base disk X node ∧ disk.locks node = some p ∧ Left disk X ("owner.json" :: "lease" :: names) ∧
        ∀ name ∈ names, name ∈ Downloader.assets
  | record node _ => Handle base disk X node ∧ disk.locks node = some p ∧ Left disk X ["owner.json", "lease"]
  | drop node _ => Handle base disk X node ∧ disk.locks node = some p ∧ Left disk X ["lease"]
  | lease _ => Left disk X ["lease"]
  | rmdir _ => Left disk X []
  | _ => True

end One

namespace Proc

def at_ : Proc R → Option String
  | downloader d => d.at_
  | collector (.one X _ _ _) => some X
  | collector _ => none

def handle : Proc R → Option Nat
  | downloader d => d.handle
  | collector (.one _ _ _ o) => o.handle
  | collector _ => none

def Local (x : Externals R) (base : Nat) (p : Pid) (disk : Disk) : Proc R → Prop
  | downloader d => d.Local x base p disk
  | collector (.one X _ _ o) => o.Local base p disk X
  | collector _ => True

/-- What two processes are not at the same time. -/
def Pair (disk : Disk) : Proc R → Proc R → Prop
  | downloader d, downloader d' => ∀ X, d.at_ = some X → d'.at_ ≠ some X
  | collector (.one X _ _ o), downloader d =>
      d.at_ = some X → (o.inHand = true → d.leaving = false → (disk.file? X "owner.json").isSome = true) ∧
        (o.entered = true → d.leaving = true)
  | collector (.one X _ _ o), collector (.one Y _ _ o') => X = Y → o.last = true → o'.last = false
  | _, _ => True

end Proc

/-- The processes and the disk, from a disk whose files had numbers below `base`. -/
structure Inv (x : Externals R) (base : Nat) (w : World R) : Prop where
  base_le : base ≤ w.disk.nodes
  old : ∀ X name file, w.disk.file? X name = some file → file.node < w.disk.nodes
  dirOld : ∀ X d, w.disk.dir? X = some d → d.node < w.disk.nodes
  apart : ∀ X name file Y other file', w.disk.file? X name = some file → w.disk.file? Y other = some file' →
    file.node = file'.node → file.node < base ∨ X = Y ∧ name = other
  known : ∀ p proc, w.procs p = some proc → proc.Local x base p w.disk
  pair : ∀ p q proc proc', p ≠ q → w.procs p = some proc → w.procs q = some proc' → proc.Pair w.disk proc'
  held : ∀ node p, w.disk.locks node = some p → ∃ proc, w.procs p = some proc ∧ proc.handle = some node

theorem owner_known : "owner.json" ∈ FILES := by decide

theorem lease_known : "lease" ∈ FILES := by decide

theorem known_split : ∀ name ∈ FILES,
    name ∈ "owner.json" :: "lease" :: FILES.filter fun name => name != "lease" && name != "owner.json" := by decide

/-! ### What others do elsewhere -/

theorem Handle.mono {node : Nat} (h : Handle base disk X node) (nodes : disk.nodes ≤ disk'.nodes)
    (here : ∀ file, disk'.file? X "lease" = some file → disk.file? X "lease" = some file)
    (files : ∀ Y name file, disk'.file? Y name = some file → disk.file? Y name = some file ∨ disk.nodes ≤ file.node) :
    Handle base disk' X node where
  old := Nat.lt_of_lt_of_le h.old nodes
  lease := fun file there => h.lease file (here file there)
  only := fun Y name file there same => by
    obtain was | fresh := files Y name file there
    · exact h.only Y name file was same
    · have old := h.old
      omega

theorem Left.mono {names : List String} (h : Left disk X names)
    (here : ∀ name, (disk'.file? X name).isSome → (disk.file? X name).isSome) : Left disk' X names :=
  fun name known there => h name known (here name there)

/-- A collector goes on knowing what it knows where names only disappear from its stage. -/
theorem One.Local.mono {o : One} (h : o.Local base q disk X) (nodes : disk.nodes ≤ disk'.nodes)
    (here : ∀ name file, disk'.file? X name = some file → disk.file? X name = some file)
    (files : ∀ Y name file, disk'.file? Y name = some file → disk.file? Y name = some file ∨ disk.nodes ≤ file.node)
    (locks : ∀ node, disk.locks node = some q → disk'.locks node = some q) : o.Local base q disk' X := by
  have still : ∀ name, (disk'.file? X name).isSome → (disk.file? X name).isSome := fun name there => by
    obtain ⟨file, found⟩ := Option.isSome_iff_exists.mp there
    rw [here name file found]
    rfl
  cases o with
  | tryLock node bytes => exact Handle.mono h nodes (here "lease") files
  | assets names node bytes =>
      exact ⟨h.1.mono nodes (here "lease") files, locks node h.2.1, h.2.2.1.mono still, h.2.2.2⟩
  | record node bytes => exact ⟨h.1.mono nodes (here "lease") files, locks node h.2.1, h.2.2.mono still⟩
  | drop node bytes => exact ⟨h.1.mono nodes (here "lease") files, locks node h.2.1, h.2.2.mono still⟩
  | lease | rmdir => exact Left.mono h still
  | _ => trivial

theorem Op.files (op : Op p X disk disk') (Y name : String) (file : File) (there : disk'.file? Y name = some file) :
    disk.file? Y name = some file ∨ disk.nodes ≤ file.node := by
  by_cases same : Y = X
  · subst same
    obtain was | ⟨fresh, _⟩ := op.file? there
    · exact .inl was
    · exact .inr (Nat.le_of_eq fresh.symm)
  · exact .inl ((op.file?_ne same).symm.trans there)

theorem Private.congr (h : Private disk X) (same : disk'.dir? X = disk.dir? X) : Private disk' X := by
  unfold Private
  rw [same]
  exact h

theorem Sound.congr (h : Sound x base disk X) (dir : disk'.dir? X = disk.dir? X)
    (data : ∀ name file, disk.file? X name = some file → disk'.data file.node = disk.data file.node) :
    Sound x base disk' X := by
  obtain ⟨record, release, there, authentic, le, written⟩ := h.owner
  obtain ⟨node, lease⟩ := h.lease
  refine ⟨h.isPrivate.congr dir, ⟨record, release, ?_, authentic, le, ?_⟩, ⟨node, ?_⟩, fun name file found => ?_⟩
  · rw [Disk.file?_congr dir, there]
  · rw [data _ _ there, written]
  · rw [Disk.file?_congr dir, lease]
  · rw [Disk.file?_congr dir] at found
    exact h.known name file found

/-- A downloader goes on knowing what it knows where its stage stays as it is. -/
theorem Downloader.Local.congr {d : Downloader R} (h : d.Local x base q disk)
    (dir : ∀ X, d.at_ = some X → disk'.dir? X = disk.dir? X)
    (data : ∀ X, d.at_ = some X → ∀ name file, disk.file? X name = some file → base ≤ file.node →
      disk'.data file.node = disk.data file.node)
    (locks : ∀ node, disk.locks node = some q → disk'.locks node = some q) : d.Local x base q disk' := by
  cases d with
  | tempdir release => exact h
  | permissions X release =>
      obtain ⟨authentic, there, empty⟩ := h
      refine ⟨authentic, ?_, fun name => ?_⟩
      · rw [dir X rfl]
        exact there
      · rw [Disk.file?_congr (dir X rfl)]
        exact empty name
  | openLease X release =>
      obtain ⟨authentic, mine, empty⟩ := h
      refine ⟨authentic, mine.congr (dir X rfl), fun name => ?_⟩
      rw [Disk.file?_congr (dir X rfl)]
      exact empty name
  | lockLease X release node =>
      obtain ⟨authentic, mine, le, only⟩ := h
      refine ⟨authentic, mine.congr (dir X rfl), le, fun name => ?_⟩
      rw [Disk.file?_congr (dir X rfl)]
      exact only name
  | openRecord X release node =>
      obtain ⟨authentic, mine, le, only, locked⟩ := h
      refine ⟨authentic, mine.congr (dir X rfl), le, fun name => ?_, locks node locked⟩
      rw [Disk.file?_congr (dir X rfl)]
      exact only name
  | write X node record left =>
      obtain ⟨mine, le, le', only, locked, release, authentic, fits, written⟩ := h
      refine ⟨mine.congr (dir X rfl), le, le', fun name => ?_, locks node locked, release, authentic, fits, ?_⟩
      · rw [Disk.file?_congr (dir X rfl)]
        exact only name
      · have there : disk.file? X "owner.json" = some ⟨record, true⟩ := only "owner.json"
        rw [data X rfl "owner.json" _ there le', written]
  | staged X node =>
      obtain ⟨sound, lease, locked⟩ := h
      refine ⟨sound.congr (dir X rfl) fun name file there => ?_, ?_, locks node locked⟩
      · exact data X rfl name file there (sound.known name file there).2.2
      · rw [Disk.file?_congr (dir X rfl)]
        exact lease
  | close X node =>
      obtain ⟨le, lease, why⟩ := h
      refine ⟨le, ?_, why.imp (locks node) fun none_ => ?_⟩
      · rw [Disk.file?_congr (dir X rfl)]
        exact lease
      · rw [Disk.file?_congr (dir X rfl)]
        exact none_
  | list X => trivial
  | clear X names | rmdir X =>
      intro name
      rw [Disk.file?_congr (dir X rfl)]
      exact h name

variable {w : World R} {node : Nat}

/-- What a process at `X` does leaves what others know of other stages. -/
theorem Proc.Local.elsewhere (inv : Inv x base w) (op : Op p X w.disk disk') (ne : q ≠ p) {proc : Proc R}
    (not_at : proc.at_ ≠ some X) (h : proc.Local x base q w.disk) : proc.Local x base q disk' := by
  have locks : ∀ node, w.disk.locks node = some q → disk'.locks node = some q := fun node => (op.locks ne).mpr
  cases proc with
  | downloader d =>
      refine Downloader.Local.congr h (fun Y at_ => op.dir? ?_) (fun Y at_ name file there le => ?_) locks
      · rintro rfl
        exact not_at at_
      · refine op.data (inv.old Y name file there) fun other file' found same => ?_
        obtain low | ⟨same, _⟩ := inv.apart Y name file X other file' there found same.symm
        · omega
        · subst same
          exact not_at at_
  | collector c =>
      cases c with
      | one Y left bytes o =>
          have other : Y ≠ X := fun same => not_at (congrArg some same)
          exact One.Local.mono h op.nodes (fun name file there => (op.file?_ne other).symm.trans there) op.files locks
      | _ => trivial

/-! ### A step of a collector -/

namespace One

variable {listed : List String} {o : One}

/-- What a collector does: it locks and gives up locks, and where it has had the lease it removes. -/
inductive Takes (p : Pid) (X : String) (disk : Disk) (entered : Prop) : Disk → Prop
  | none : Takes p X disk entered disk
  | lock {node : Nat} (free : disk.locks node = Option.none) : Takes p X disk entered (disk.lock node p)
  | unlock (node : Nat) : Takes p X disk entered (disk.unlock node p)
  | unlink (name : String) (may : entered) : Takes p X disk entered (disk.unlink X name)
  | rmdir (may : entered) : Takes p X disk entered (disk.rmdir X)

theorem takes (o : One) : Takes p X disk (o.entered = true) (o.step x p X listed disk).2 := by
  cases o with
  | metadata =>
      simp only [step]
      split
      · split <;> exact .none
      · exact .none
  | list =>
      simp only [step]
      split <;> exact .none
  | sizes names bytes =>
      cases names with
      | nil => exact .none
      | cons name names =>
          simp only [step]
          split
          · exact .none
          · split <;> exact .none
  | recordMetadata | recordOpen | leaseMetadata | leaseOpen | recordRead =>
      simp only [step]
      split <;> exact .none
  | tryLock node bytes =>
      simp only [step]
      split
      · exact .lock ‹_›
      · exact .none
  | assets names node bytes =>
      cases names with
      | nil => exact .none
      | cons name names => exact .unlink name rfl
  | record node bytes =>
      simp only [step]
      split
      · exact .unlink _ rfl
      · exact .unlock node
  | drop node bytes => exact .unlock node
  | lease bytes =>
      simp only [step]
      split
      · exact .unlink _ rfl
      · exact .none
  | rmdir bytes =>
      simp only [step]
      split
      · split
        · exact .rmdir rfl
        · exact .none
      · exact .none

variable {entered : Prop}

section

variable (h : Takes p X disk entered disk')
include h

theorem Takes.op : Op p X disk disk' := by
  cases h with
  | none => exact .none
  | lock free => exact .lock free
  | unlock node => exact .unlock node
  | unlink name => exact .unlink name
  | rmdir => exact .rmdir

theorem Takes.removes (Y name : String) (file : File)
    (there : disk'.file? Y name = some file) : disk.file? Y name = some file := by
  by_cases same : Y = X
  · subst same
    cases h with
    | none | lock | unlock => exact there
    | unlink =>
        rw [Disk.file?_unlink] at there
        split at there
        · cases there
        · exact there
    | rmdir =>
        rw [Disk.file?_of_none Disk.dir?_rmdir] at there
        cases there
  · exact (h.op.file?_ne same).symm.trans there

theorem Takes.data : disk'.data = disk.data := by
  cases h with
  | unlink => exact Disk.data_unlink
  | none | lock | unlock | rmdir => rfl

/-- Before it has the lease a collector changes no directory. -/
theorem Takes.reads (not_ : ¬ entered) : disk'.root = disk.root := by
  cases h with
  | none | lock | unlock => rfl
  | unlink _ may | rmdir may => exact absurd may not_

end

end One

theorem Disk.dir?_of_root (h : disk'.root = disk.root) : disk'.dir? X = disk.dir? X := by
  unfold dir?
  rw [h]

theorem Disk.locks_unlock {other : Nat} (h : (disk.unlock node p).locks other = some p) :
    disk.locks other = some p ∧ other ≠ node := by
  simp only [unlock] at h
  split at h
  · cases h
  · rename_i not_
    refine ⟨h, fun same => not_ ⟨same, ?_⟩⟩
    rw [← same]
    exact h

theorem Disk.locks_lock {other : Nat} (h : (disk.lock node p).locks other = some p) :
    other = node ∨ disk.locks other = some p := by
  simp only [lock] at h
  split at h
  · exact .inl ‹_›
  · exact .inr h

namespace One

variable {listed : List String} {o o' : One}

theorem handle_of_inv (inv : Inv x base w) {file : File} (there : w.disk.file? X name = some file)
    (is : ∀ other, w.disk.file? X "lease" = some other → other.node = file.node) :
    Handle base w.disk X file.node where
  old := inv.old X name file there
  lease := is
  only := fun Y other file' found same => by
    obtain low | ⟨same, _⟩ := inv.apart Y other file' X name file found there same
    · exact .inl (same ▸ low)
    · exact .inr same

theorem Left.unlink {names : List String} (h : Left disk X (name :: names)) : Left (disk.unlink X name) X names := by
  intro other known there
  rw [Disk.file?_unlink] at there
  split at there
  · cases there
  · exact (List.mem_cons.mp (h other known there)).resolve_left ‹_›

/-- What a collector knows after a call that it goes on from. -/
theorem known_step (inv : Inv x base w) (known : o.Local base p w.disk X)
    (goes : (o.step x p X listed w.disk).1 = .goes o') : o'.Local base p (o.step x p X listed w.disk).2 X := by
  have takes : Takes p X w.disk (o.entered = true) (o.step x p X listed w.disk).2 := takes o
  have handle {node : Nat} (h : Handle base w.disk X node) : Handle base (o.step x p X listed w.disk).2 X node :=
    h.mono takes.op.nodes (fun file => takes.removes X "lease" file) fun Y name file there =>
      .inl (takes.removes Y name file there)
  cases o with
  | metadata =>
      simp only [step] at goes
      split at goes
      · split at goes <;> cases goes
        trivial
      · cases goes
  | list =>
      simp only [step] at goes
      split at goes <;> cases goes
      trivial
  | sizes names bytes =>
      cases names with
      | nil =>
          cases goes
          trivial
      | cons name names =>
          simp only [step] at goes
          split at goes
          · cases goes
          · split at goes <;> cases goes
            trivial
  | recordMetadata | recordOpen | leaseMetadata | recordRead =>
      simp only [step] at goes
      split at goes <;> cases goes
      trivial
  | leaseOpen bytes =>
      simp only [step] at goes
      split at goes
      · rename_i file there
        cases goes
        refine handle (handle_of_inv inv there fun other found => ?_)
        rw [there] at found
        cases found
        rfl
      · cases goes
  | tryLock node bytes =>
      have handle := handle known
      simp only [step] at goes handle ⊢
      split at goes
      · rename_i free
        cases goes
        simp only [free] at handle ⊢
        exact ⟨handle, if_pos rfl, fun name known _ => known_split name known, by decide⟩
      · cases goes
  | assets names node bytes =>
      obtain ⟨was, locked, left, among⟩ := known
      cases names with
      | nil =>
          cases goes
          exact ⟨was, locked, left⟩
      | cons name names =>
          cases goes
          refine ⟨handle was, ?_, fun other known there => ?_, fun other mem => among other (.tail _ mem)⟩
          · simp only [step, Disk.locks_unlink]
            exact locked
          · simp only [step, Disk.file?_unlink] at there
            split at there
            · cases there
            · rename_i ne
              have among := left other known there
              simp only [List.mem_cons] at among ⊢
              tauto
  | record node bytes =>
      obtain ⟨was, locked, left⟩ := known
      have handle := handle was
      simp only [step] at goes handle ⊢
      split at goes
      · rename_i there
        cases goes
        simp only [there] at handle ⊢
        refine ⟨handle, ?_, Left.unlink left⟩
        rw [Disk.locks_unlink]
        exact locked
      · cases goes
  | drop node bytes =>
      cases goes
      exact known.2.2
  | lease bytes =>
      simp only [step] at goes ⊢
      split at goes
      · rename_i there
        cases goes
        exact Left.unlink known
      · cases goes
  | rmdir bytes =>
      simp only [step] at goes
      split at goes
      · split at goes <;> cases goes
      · cases goes

/-- The locks of a collector are those its phase says. -/
theorem held_step (held : ∀ node, disk.locks node = some p → o.handle = some node) :
    ∀ node, (o.step x p X listed disk).2.locks node = some p →
      ∃ o', (o.step x p X listed disk).1 = .goes o' ∧ o'.handle = some node := by
  intro node locked
  cases o with
  | tryLock other bytes =>
      simp only [step] at locked ⊢
      split at locked
      · obtain same | locked := Disk.locks_lock locked
        · exact ⟨_, rfl, congrArg some same.symm⟩
        · cases held node locked
      · cases held node locked
  | assets names other bytes =>
      cases names with
      | nil => exact ⟨_, rfl, held node locked⟩
      | cons name names =>
          simp only [step, Disk.locks_unlink] at locked
          exact ⟨_, rfl, held node locked⟩
  | record other bytes =>
      simp only [step] at locked ⊢
      split at locked
      · rw [Disk.locks_unlink] at locked
        exact ⟨_, rfl, held node locked⟩
      · obtain ⟨locked, ne⟩ := Disk.locks_unlock locked
        cases held node locked
        exact absurd rfl ne
  | drop other bytes =>
      obtain ⟨locked, ne⟩ := Disk.locks_unlock locked
      cases held node locked
      exact absurd rfl ne
  | metadata =>
      simp only [step] at locked
      split at locked
      · split at locked <;> cases held node locked
      · cases held node locked
  | list | recordMetadata | recordOpen | leaseMetadata | leaseOpen | recordRead =>
      simp only [step] at locked
      split at locked <;> cases held node locked
  | sizes names bytes =>
      cases names with
      | nil => cases held node locked
      | cons name names =>
          simp only [step] at locked
          split at locked
          · cases held node locked
          · split at locked <;> cases held node locked
  | lease bytes =>
      simp only [step] at locked
      split at locked
      · rw [Disk.locks_unlink] at locked
        cases held node locked
      · cases held node locked
  | rmdir bytes =>
      simp only [step] at locked
      split at locked
      · split at locked <;> cases held node locked
      · cases held node locked

end One

/-! ### A step of a downloader -/

theorem Disk.dir?_of_notMem (h : X ∉ disk.root) : disk.dir? X = none := by
  unfold dir?
  rw [AList.lookup_eq_none.mpr h]

namespace Downloader

variable {d d' : Downloader R} {a : Act}

/-- The stage a downloader is at when it has done this. -/
def place (d : Downloader R) : Act → Option String
  | .draw X _ => some X
  | _ => d.at_

theorem stays (able : d.Able disk a) (goes : (d.step x p disk a).1 = some d') : d'.at_ = d.place a := by
  cases able with
  | openRecord | append =>
      simp only [step] at goes
      split at goes <;> cases goes <;> rfl
  | list =>
      simp only [step] at goes
      split at goes <;> cases goes
      rfl
  | @clear X names =>
      cases names <;> cases goes <;> rfl
  | rmdir =>
      simp only [step] at goes
      split at goes <;> cases goes
  | _ =>
      cases goes
      rfl

theorem op (able : d.Able disk a) (known : d.Local x base p disk) (at_ : d.place a = some X) :
    Op p X disk (d.step x p disk a).2 := by
  cases able with
  | tempdir named free =>
      cases at_
      exact .mkdir _ (Disk.dir?_of_notMem free)
  | permissions =>
      cases at_
      obtain ⟨_, ⟨dir, there⟩, _⟩ := known
      exact .chmod there
  | openLease =>
      cases at_
      obtain ⟨_, ⟨dir, there, _⟩, empty⟩ := known
      exact .create there (empty _)
  | lockLease free =>
      cases at_
      exact .lock free
  | openRecord =>
      cases at_
      obtain ⟨_, ⟨dir, there, _⟩, _, only, _⟩ := known
      simp only [step]
      split
      · exact .none
      · exact .create there (only _)
  | write =>
      cases at_
      obtain ⟨_, _, _, only, _⟩ := known
      have there := only "owner.json"
      rw [if_pos rfl] at there
      exact @Op.append _ _ _ _ ⟨_, true⟩ _ there
  | create asset free =>
      cases at_
      obtain ⟨dir, there, _⟩ := known.1.isPrivate
      exact .create there free
  | append asset there =>
      cases at_
      simp only [step]
      split
      · exact .append ‹_›
      · exact .none
  | moveAway =>
      cases at_
      exact .unlink _
  | @close X node =>
      cases at_
      exact .unlock node
  | list =>
      cases at_
      simp only [step]
      split <;> exact .none
  | @clear X names =>
      cases at_
      cases names with
      | nil => exact .none
      | cons name names => exact .unlink name
  | rmdir =>
      cases at_
      simp only [step]
      split
      · split
        · exact .rmdir
        · exact .none
      · exact .none
  | written | finished | permissionsFails | openLeaseFails | lockLeaseFails | openRecordFails | writeFails => exact .none

theorem onlyLease_lease (node : Nat) : onlyLease node "lease" = some ⟨node, true⟩ := if_pos rfl

/-- A stage stays one that a collector takes while only its assets change. -/
theorem sound_still (sound : Sound x base disk X) (mine : Private disk' X)
    (kept : ∀ name, name ∉ assets → disk'.file? X name = disk.file? X name)
    (data : ∀ record, disk.file? X "owner.json" = some ⟨record, true⟩ → disk'.data record = disk.data record)
    (known : ∀ name file, disk'.file? X name = some file →
      disk.file? X name = some file ∨ name ∈ FILES ∧ file.regular = true ∧ base ≤ file.node) :
    Sound x base disk' X := by
  obtain ⟨record, release, owner, authentic, fits, written⟩ := sound.owner
  obtain ⟨node, lease⟩ := sound.lease
  refine ⟨mine, ⟨record, release, (kept _ (by decide)).trans owner, authentic, fits, (data _ owner).trans written⟩,
    ⟨node, (kept _ (by decide)).trans lease⟩, fun name file there => ?_⟩
  obtain was | new := known name file there
  · exact sound.known name file was
  · exact new

theorem sound_create (inv : Inv x base w) (sound : Sound x base w.disk X) (asset : name ∈ assets) :
    Sound x base (w.disk.create X name) X := by
  obtain ⟨dir, there, mine⟩ := sound.isPrivate
  refine sound_still sound ⟨_, Disk.dir?_create there, mine⟩ (fun other not_ => ?_) (fun record owner => ?_)
    fun other file found => ?_
  · rw [Disk.file?_create there, if_neg (ne_of_mem_of_not_mem asset not_).symm]
  · rw [Disk.data_create there]
    exact if_neg (Nat.ne_of_lt (inv.old _ _ _ owner))
  · rw [Disk.file?_create there] at found
    split at found
    · rename_i same
      cases found
      exact .inr ⟨(by decide : ∀ name ∈ assets, name ∈ FILES) other (same ▸ asset), rfl, inv.base_le⟩
    · exact .inl found

theorem sound_append (inv : Inv x base w) (sound : Sound x base w.disk X) (asset : name ∈ assets) {file : File}
    (found : w.disk.file? X name = some file) (piece : Bytes) : Sound x base (w.disk.append file.node piece) X := by
  refine sound_still sound sound.isPrivate (fun _ _ => rfl) (fun record owner => if_neg fun same => ?_) fun _ _ => .inl
  obtain low | ⟨_, same⟩ := inv.apart _ _ _ _ _ _ owner found same
  · have := (sound.known _ _ owner).2.2
    omega
  · subst same
    exact absurd asset (by decide)

theorem sound_unlink (sound : Sound x base disk X) (asset : name ∈ assets) : Sound x base (disk.unlink X name) X := by
  obtain ⟨dir, there, mine⟩ := sound.isPrivate
  refine sound_still sound ⟨_, Disk.dir?_unlink there, mine⟩ (fun other not_ => ?_) (fun _ _ => by rw [Disk.data_unlink])
    fun other file found => ?_
  · rw [Disk.file?_unlink, if_neg (ne_of_mem_of_not_mem asset not_).symm]
  · rw [Disk.file?_unlink] at found
    split at found
    · cases found
    · exact .inl found

/-- With its record written to the end a stage is one that a collector takes. -/
theorem written_staged {node record : Nat} (known : (write X node record [] : Downloader R).Local x base p disk) :
    (staged X node : Downloader R).Local x base p disk := by
  obtain ⟨mine, le, le', only, locked, release, authentic, fits, written⟩ := known
  have owner := only "owner.json"
  have lease := only "lease"
  rw [if_pos rfl] at owner
  rw [if_neg (by decide), onlyLease_lease] at lease
  rw [List.append_nil] at written
  refine ⟨⟨mine, ⟨_, release, owner, authentic, fits, written⟩, ⟨_, lease⟩, fun name file there => ?_⟩, lease, locked⟩
  have was : (if name = "owner.json" then _ else _) = some file := (only name).symm.trans there
  split at was
  · rename_i same
    cases was
    exact ⟨same ▸ owner_known, rfl, le'⟩
  · unfold onlyLease at was
    split at was
    · rename_i same
      cases was
      exact ⟨same ▸ lease_known, rfl, le⟩
    · cases was

/-- What a downloader knows of its stage after a call. -/
theorem known_step (inv : Inv x base w) (able : d.Able w.disk a) (known : d.Local x base p w.disk)
    (goes : (d.step x p w.disk a).1 = some d') : d'.Local x base p (d.step x p w.disk a).2 := by
  have low := inv.base_le
  cases able with
  | tempdir =>
      cases goes
      refine ⟨known, ⟨_, Disk.dir?_mkdir⟩, fun name => ?_⟩
      exact (Disk.file?_of_dir? Disk.dir?_mkdir).trans (AList.lookup_empty _)
  | permissions =>
      cases goes
      obtain ⟨authentic, ⟨dir, there⟩, empty⟩ := known
      refine ⟨authentic, ⟨_, Disk.dir?_chmod there, rfl⟩, fun name => ?_⟩
      have was := empty name
      rw [Disk.file?_of_dir? there] at was
      exact (Disk.file?_of_dir? (Disk.dir?_chmod there)).trans was
  | openLease =>
      cases goes
      obtain ⟨authentic, ⟨dir, there, mine⟩, empty⟩ := known
      refine ⟨authentic, ⟨_, Disk.dir?_create there, mine⟩, low, fun name => ?_⟩
      change (w.disk.create _ _).file? _ _ = _
      rw [Disk.file?_create there, empty name]
      rfl
  | lockLease free =>
      cases goes
      obtain ⟨authentic, mine, le, only⟩ := known
      exact ⟨authentic, mine, le, only, if_pos rfl⟩
  | openRecord =>
      obtain ⟨authentic, ⟨dir, there, mine⟩, le, only, locked⟩ := known
      simp only [step] at goes ⊢
      split at goes
      · rename_i long
        cases goes
        rw [if_pos long]
        exact ⟨le, only "lease", .inl locked⟩
      · rename_i fits
        cases goes
        rw [if_neg fits]
        refine ⟨⟨_, Disk.dir?_create there, mine⟩, le, low, fun name => ?_, ?_, _, authentic, Nat.le_of_not_lt fits, ?_⟩
        · rw [Disk.file?_create there, only name]
        · rw [Disk.locks_create]
          exact locked
        · rw [Disk.data_create there]
          simp only [if_true, List.nil_append]
  | write some_ le =>
      cases goes
      obtain ⟨mine, le, le', only, locked, release, authentic, fits, written⟩ := known
      refine ⟨mine, le, le', only, locked, release, authentic, fits, ?_⟩
      simp only [step, Disk.append, if_true]
      rw [List.append_assoc, List.take_append_drop, written]
  | written =>
      cases goes
      exact written_staged known
  | @create X node name asset free =>
      cases goes
      obtain ⟨sound, lease, locked⟩ := known
      obtain ⟨dir, there, mine⟩ := sound.isPrivate
      have notLease : "lease" ≠ name := by
        rintro rfl
        exact absurd asset (by decide)
      refine ⟨sound_create inv sound asset, ?_, ?_⟩
      · exact (Disk.file?_create there).trans ((if_neg notLease).trans lease)
      · exact (congrFun Disk.locks_create node).trans locked
  | @append X node name piece asset there =>
      obtain ⟨sound, lease, locked⟩ := known
      simp only [step] at goes ⊢
      split at goes
      · rename_i file found
        cases goes
        exact ⟨sound_append inv sound asset found piece, lease, locked⟩
      · cases goes
        rename_i none_
        rw [none_] at there
        cases there
  | @moveAway X node there =>
      cases goes
      obtain ⟨sound, lease, locked⟩ := known
      refine ⟨sound_unlink sound (by decide), ?_, ?_⟩
      · exact Disk.file?_unlink.trans ((if_neg (by decide)).trans lease)
      · exact (congrFun Disk.locks_unlink node).trans locked
  | finished =>
      cases goes
      obtain ⟨sound, lease, locked⟩ := known
      exact ⟨(sound.known _ _ lease).2.2, lease, .inl locked⟩
  | permissionsFails | openLeaseFails =>
      cases goes
      trivial
  | lockLeaseFails =>
      cases goes
      obtain ⟨_, _, le, only⟩ := known
      exact ⟨le, only "lease", .inr (only "owner.json")⟩
  | openRecordFails =>
      cases goes
      obtain ⟨_, _, le, only, locked⟩ := known
      exact ⟨le, only "lease", .inl locked⟩
  | writeFails =>
      cases goes
      obtain ⟨_, le, _, only, locked, _⟩ := known
      exact ⟨le, only "lease", .inl locked⟩
  | close =>
      cases goes
      trivial
  | @list X names all =>
      simp only [step] at goes ⊢
      split at goes
      · rename_i dir there
        cases goes
        intro name found
        rw [Disk.file?_of_dir? there] at found
        exact (all dir there).mem_iff.mpr (AList.mem_keys.mp (AList.lookup_isSome.mp found))
      · cases goes
  | @clear X names =>
      cases names with
      | nil =>
          cases goes
          intro name
          exact Option.not_isSome_iff_eq_none.mp fun found => absurd (known name found) List.not_mem_nil
      | cons name names =>
          cases goes
          intro other found
          change ((w.disk.unlink X name).file? X other).isSome = true at found
          rw [Disk.file?_unlink] at found
          split at found
          · cases found
          · exact (List.mem_cons.mp (known other found)).resolve_left ‹_›
  | rmdir =>
      simp only [step] at goes
      split at goes <;> cases goes

/-- The locks of a downloader are those its phase says. -/
theorem held_step (able : d.Able disk a) (held : ∀ node, disk.locks node = some p → d.handle = some node) :
    ∀ node, (d.step x p disk a).2.locks node = some p →
      ∃ d', (d.step x p disk a).1 = some d' ∧ d'.handle = some node := by
  intro node locked
  cases able with
  | tempdir => cases held node locked
  | permissions =>
      simp only [step, Disk.locks_chmod] at locked
      cases held node locked
  | openLease =>
      simp only [step, Disk.locks_create] at locked
      cases held node locked
  | lockLease =>
      obtain same | locked := Disk.locks_lock locked
      · exact ⟨_, rfl, congrArg some same.symm⟩
      · cases held node locked
  | openRecord =>
      simp only [step] at locked ⊢
      split at locked
      · rename_i long
        rw [if_pos long]
        exact ⟨_, rfl, held node locked⟩
      · rename_i fits
        rw [if_neg fits]
        rw [Disk.locks_create] at locked
        exact ⟨_, rfl, held node locked⟩
  | create =>
      simp only [step, Disk.locks_create] at locked
      exact ⟨_, rfl, held node locked⟩
  | append =>
      simp only [step] at locked ⊢
      split at locked
      · exact ⟨_, rfl, held node locked⟩
      · exact ⟨_, rfl, held node locked⟩
  | moveAway =>
      simp only [step, Disk.locks_unlink] at locked
      exact ⟨_, rfl, held node locked⟩
  | permissionsFails | openLeaseFails | lockLeaseFails => cases held node locked
  | write | written | finished | openRecordFails | writeFails => exact ⟨_, rfl, held node locked⟩
  | close =>
      obtain ⟨locked, ne⟩ := Disk.locks_unlock locked
      cases held node locked
      exact absurd rfl ne
  | list =>
      simp only [step] at locked
      split at locked <;> cases held node locked
  | @clear X names =>
      cases names with
      | nil => cases held node locked
      | cons name names =>
          simp only [step, Disk.locks_unlink] at locked
          cases held node locked
  | rmdir =>
      simp only [step] at locked
      split at locked
      · split at locked <;> cases held node locked
      · cases held node locked

end Downloader

/-! ### Every event -/

namespace Inv

variable {w : World R}

/-- What a process at `X` does keeps the invariant, where it does for what it is next and for the others there. -/
theorem of_op (inv : Inv x base w) (op : Op p X w.disk disk') {next : Option (Proc R)}
    (known : ∀ proc, next = some proc → proc.Local x base p disk')
    (held : ∀ node, disk'.locks node = some p → ∃ proc, next = some proc ∧ proc.handle = some node)
    (here : ∀ q proc, q ≠ p → w.procs q = some proc → proc.at_ = some X → proc.Local x base q disk')
    (owner : ∀ q d, q ≠ p → w.procs q = some (.downloader d) → d.at_ = some X → d.leaving = false →
      (w.disk.file? X "owner.json").isSome = true → (disk'.file? X "owner.json").isSome = true)
    (pair : ∀ q proc proc', q ≠ p → w.procs q = some proc → next = some proc' →
      proc.Pair disk' proc' ∧ proc'.Pair disk' proc) : Inv x base (w.setProc p next disk') where
  base_le := Nat.le_trans inv.base_le op.nodes
  old := by
    intro Y name file there
    by_cases same : Y = X
    · subst same
      obtain was | ⟨fresh, more, _⟩ := op.file? there
      · exact Nat.lt_of_lt_of_le (inv.old Y name file was) op.nodes
      · change file.node < disk'.nodes
        omega
    · exact Nat.lt_of_lt_of_le (inv.old Y name file ((op.file?_ne same).symm.trans there)) op.nodes
  dirOld := by
    intro Y d there
    by_cases same : Y = X
    · subst same
      cases op with
      | none | append | lock | unlock => exact inv.dirOld Y d there
      | mkdir isPrivate free =>
          change (w.disk.mkdir Y isPrivate).dir? Y = _ at there
          rw [Disk.dir?_mkdir] at there
          cases there
          exact Nat.lt_succ_self _
      | @chmod dir was =>
          change (w.disk.chmod Y).dir? Y = _ at there
          rw [Disk.dir?_chmod was] at there
          cases there
          change dir.node < (w.disk.chmod Y).nodes
          rw [Disk.nodes_chmod]
          exact inv.dirOld Y dir was
      | @create dir name was free =>
          change (w.disk.create Y name).dir? Y = _ at there
          rw [Disk.dir?_create was] at there
          cases there
          change dir.node < (w.disk.create Y name).nodes
          rw [Disk.nodes_create was]
          exact Nat.lt_succ_of_lt (inv.dirOld Y dir was)
      | unlink name =>
          change (w.disk.unlink Y name).dir? Y = _ at there
          change d.node < (w.disk.unlink Y name).nodes
          rw [Disk.nodes_unlink]
          cases was : w.disk.dir? Y with
          | none =>
              unfold Disk.unlink at there
              rw [was] at there
              rw [was] at there
              cases there
          | some dir =>
              rw [Disk.dir?_unlink was] at there
              cases there
              exact inv.dirOld Y dir was
      | rmdir =>
          change (w.disk.rmdir Y).dir? Y = _ at there
          rw [Disk.dir?_rmdir] at there
          cases there
    · exact Nat.lt_of_lt_of_le (inv.dirOld Y d ((op.dir? same).symm.trans there)) op.nodes
  apart := by
    have was (Y name : String) (file : File) (there : disk'.file? Y name = some file) :
        w.disk.file? Y name = some file ∨ Y = X ∧ file.node = w.disk.nodes ∧
          ∀ other f, disk'.file? X other = some f → other = name ∨ w.disk.file? X other = some f := by
      by_cases same : Y = X
      · subst same
        exact (op.file? there).imp id fun ⟨fresh, _, _, only⟩ => ⟨rfl, fresh, only⟩
      · exact .inl ((op.file?_ne same).symm.trans there)
    intro Y name file Z other file' there there' same
    obtain old | ⟨at_, fresh, only⟩ := was Y name file there
    · obtain old' | ⟨_, fresh', _⟩ := was Z other file' there'
      · exact inv.apart Y name file Z other file' old old' same
      · have := inv.old Y name file old
        omega
    · obtain old' | ⟨at_', _, _⟩ := was Z other file' there'
      · have := inv.old Z other file' old'
        omega
      · subst at_ at_'
        obtain rfl | old' := only other file' there'
        · exact .inr ⟨rfl, rfl⟩
        · have := inv.old _ other file' old'
          omega
  known := by
    intro q proc is
    by_cases same : q = p
    · subst same
      exact known proc ((if_pos rfl).symm.trans is)
    · have was : w.procs q = some proc := (if_neg same).symm.trans is
      by_cases at_ : proc.at_ = some X
      · exact here q proc same was at_
      · exact Proc.Local.elsewhere inv op same at_ (inv.known q proc was)
  pair := by
    intro q r proc proc' ne is is'
    by_cases same : q = p
    · subst same
      have next_ : next = some proc := (if_pos rfl).symm.trans is
      have was : w.procs r = some proc' := (if_neg (Ne.symm ne)).symm.trans is'
      exact (pair r proc' proc (Ne.symm ne) was next_).2
    · have was : w.procs q = some proc := (if_neg same).symm.trans is
      by_cases same' : r = p
      · subst same'
        exact (pair q proc proc' same was ((if_pos rfl).symm.trans is')).1
      · have was' : w.procs r = some proc' := (if_neg same').symm.trans is'
        have before := inv.pair q r proc proc' ne was was'
        cases proc with
        | downloader d => cases proc' <;> exact before
        | collector c =>
            cases c with
            | root | next | done => trivial
            | one Y left bytes o =>
                cases proc' with
                | collector c' => cases c' <;> exact before
                | downloader d =>
                    intro at_
                    obtain ⟨present, leaves⟩ := before at_
                    refine ⟨fun inHand stays => ?_, leaves⟩
                    by_cases here : Y = X
                    · subst here
                      exact owner r d same' was' at_ stays (present inHand stays)
                    · change (disk'.file? Y "owner.json").isSome = true
                      rw [op.file?_ne here]
                      exact present inHand stays
  held := by
    intro node q locked
    by_cases same : q = p
    · subst same
      obtain ⟨proc, is, handle⟩ := held node locked
      exact ⟨proc, (if_pos rfl).trans is, handle⟩
    · obtain ⟨proc, is, handle⟩ := inv.held node q ((op.locks same).mp locked)
      exact ⟨proc, (if_neg same).trans is, handle⟩

variable {o : One} {c : Collector}

/-- How a collector comes to have a stage in hand, its lease, and its record removed. -/
theorem comes {o' : One} {listed : List String} (goes : (o.step x p X listed disk).1 = .goes o') :
    (o'.inHand = true → o.inHand = true ∨ o.entered = false ∧ (disk.file? X "owner.json").isSome = true) ∧
      (o'.entered = true → o.entered = true ∨ ∃ node bytes, o = .tryLock node bytes ∧ disk.locks node = none) ∧
      (o'.last = true → o.last = true ∨ (disk.file? X "owner.json").isSome = true) := by
  cases o with
  | metadata =>
      simp only [One.step] at goes
      split at goes
      · split at goes <;> cases goes
        exact ⟨nofun, nofun, nofun⟩
      · cases goes
  | list =>
      simp only [One.step] at goes
      split at goes <;> cases goes
      exact ⟨nofun, nofun, nofun⟩
  | sizes names bytes =>
      cases names with
      | nil =>
          cases goes
          exact ⟨nofun, nofun, nofun⟩
      | cons name names =>
          simp only [One.step] at goes
          split at goes
          · cases goes
          · split at goes <;> cases goes
            exact ⟨nofun, nofun, nofun⟩
  | recordMetadata =>
      simp only [One.step] at goes
      split at goes <;> cases goes
      exact ⟨nofun, nofun, nofun⟩
  | recordOpen =>
      simp only [One.step] at goes
      split at goes <;> cases goes
      rename_i there
      exact ⟨fun _ => .inr ⟨rfl, there ▸ rfl⟩, nofun, nofun⟩
  | recordRead | leaseMetadata | leaseOpen =>
      simp only [One.step] at goes
      split at goes <;> cases goes
      exact ⟨fun _ => .inl rfl, nofun, nofun⟩
  | tryLock node bytes =>
      simp only [One.step] at goes
      split at goes <;> cases goes
      exact ⟨fun _ => .inl rfl, fun _ => .inr ⟨node, bytes, rfl, ‹_›⟩, nofun⟩
  | assets names node bytes =>
      cases names <;> cases goes <;> exact ⟨fun _ => .inl rfl, fun _ => .inl rfl, nofun⟩
  | record =>
      simp only [One.step] at goes
      split at goes <;> cases goes
      rename_i there
      exact ⟨fun _ => .inl rfl, fun _ => .inl rfl, fun _ => .inr (there ▸ rfl)⟩
  | drop =>
      cases goes
      exact ⟨fun _ => .inl rfl, fun _ => .inl rfl, fun _ => .inl rfl⟩
  | lease =>
      simp only [One.step] at goes
      split at goes <;> cases goes
      exact ⟨fun _ => .inl rfl, fun _ => .inl rfl, fun _ => .inl rfl⟩
  | rmdir =>
      simp only [One.step] at goes
      split at goes
      · split at goes <;> cases goes
      · cases goes

/-- A collector that has removed the record knows that there is none. -/
theorem no_owner (known : o.Local base p disk X) (last : o.last = true) : disk.file? X "owner.json" = none := by
  have none_ {names : List String} (left : Left disk X names) (not : "owner.json" ∉ names) :
      disk.file? X "owner.json" = none :=
    Option.not_isSome_iff_eq_none.mp fun there => not (left _ owner_known there)
  cases o with
  | drop => exact none_ known.2.2 (by decide)
  | lease | rmdir => exact none_ known (by decide)
  | metadata | list | sizes | recordMetadata | recordOpen | recordRead | leaseMetadata | leaseOpen | tryLock | assets
  | record => cases last

/-- A downloader that is not on its way out and whose stage has a record has the lock of its lease. -/
theorem locked_of_owner {d : Downloader R} (known : d.Local x base q disk) (at_ : d.at_ = some X)
    (stays : d.leaving = false) (owner : (disk.file? X "owner.json").isSome = true) :
    ∃ node, disk.file? X "lease" = some ⟨node, true⟩ ∧ disk.locks node = some q := by
  have absent (h : disk.file? X "owner.json" = none) : False := by
    rw [h] at owner
    cases owner
  cases d with
  | tempdir => cases at_
  | permissions | openLease =>
      cases at_
      exact (absent (known.2.2 _)).elim
  | lockLease =>
      cases at_
      exact (absent (known.2.2.2 _)).elim
  | openRecord =>
      cases at_
      exact (absent (known.2.2.2.1 _)).elim
  | write X node record left =>
      cases at_
      obtain ⟨_, _, _, only, locked, _⟩ := known
      exact ⟨node, only "lease", locked⟩
  | staged X node =>
      cases at_
      exact ⟨node, known.2⟩
  | close X node =>
      cases at_
      exact ⟨node, known.2.1, known.2.2.resolve_right absent⟩
  | list | clear | rmdir => cases stays

/-- Where a collector gets the lease, no downloader is at work. -/
theorem leaving_of_free (inv : Inv x base w) {left : List (String × Bool)} {bytes n : Nat}
    (is : w.procs p = some (.collector (.one X left bytes o))) (try_ : o = .tryLock node n)
    (free : w.disk.locks node = none) {d : Downloader R} (ne : q ≠ p) (was : w.procs q = some (.downloader d))
    (at_ : d.at_ = some X) : d.leaving = true := by
  subst try_
  by_contra stays
  rw [Bool.not_eq_true] at stays
  have owner := (inv.pair p q _ _ (Ne.symm ne) is was at_).1 rfl stays
  obtain ⟨other, lease, locked⟩ := locked_of_owner (inv.known q _ was) at_ stays owner
  have handle : Handle base w.disk X node := inv.known p _ is
  have same : other = node := handle.lease _ lease
  rw [same, free] at locked
  cases locked

/-- What a collector does in a stage keeps the invariant. -/
theorem one (inv : Inv x base w) {left : List (String × Bool)} {bytes : Nat} (listed : List String)
    (is : w.procs p = some (.collector (.one X left bytes o)))
    (goes : ∀ o', (o.step x p X listed w.disk).1 = .goes o' → c = .one X left bytes o')
    (ends : (∀ o', (o.step x p X listed w.disk).1 ≠ .goes o') → ∃ left bytes, c = .next left bytes) :
    Inv x base (w.setProc p (some (.collector c)) (o.step x p X listed w.disk).2) := by
  have takes : One.Takes p X w.disk (o.entered = true) (o.step x p X listed w.disk).2 := o.takes
  have known : o.Local base p w.disk X := inv.known p _ is
  have held := @One.held_step _ x w.disk X p listed o
    fun node locked => by
      obtain ⟨proc, there, handle⟩ := inv.held node p locked
      rw [is] at there
      cases there
      exact handle
  refine inv.of_op takes.op ?_ ?_ ?_ ?_ ?_
  · rintro _ ⟨⟩
    by_cases more : ∃ o', (o.step x p X listed w.disk).1 = .goes o'
    · obtain ⟨o', is'⟩ := more
      rw [goes o' is']
      exact One.known_step inv known is'
    · obtain ⟨left', bytes', same⟩ := ends (not_exists.mp more)
      rw [same]
      trivial
  · intro node locked
    obtain ⟨o', is', handle⟩ := held node locked
    refine ⟨_, rfl, ?_⟩
    rw [goes o' is']
    exact handle
  · intro q proc ne was at_
    cases proc with
    | collector c' =>
        cases c' with
        | root | next | done => trivial
        | one Y left' bytes' o' =>
            exact One.Local.mono (inv.known q _ was) takes.op.nodes (takes.removes Y) takes.op.files
              fun node => (takes.op.locks ne).mpr
    | downloader d =>
        cases inside : o.entered with
        | false =>
            refine Downloader.Local.congr (inv.known q _ was) (fun Y _ => ?_) (fun Y _ name file _ _ => ?_)
              fun node => (takes.op.locks ne).mpr
            · exact Disk.dir?_of_root (takes.reads (Bool.not_eq_true _ ▸ inside))
            · rw [takes.data]
        | true =>
            have leaves : d.leaving = true := (inv.pair p q _ _ (Ne.symm ne) is was at_).2 inside
            have before : d.Local x base q w.disk := inv.known q _ was
            cases d with
            | list => trivial
            | clear Y names =>
                intro name found
                obtain ⟨file, there⟩ := Option.isSome_iff_exists.mp found
                have was := takes.removes Y name file there
                exact before name (was ▸ rfl)
            | rmdir Y =>
                intro name
                refine Option.eq_none_iff_forall_ne_some.mpr fun file there => ?_
                have was := takes.removes Y name file there
                rw [before name] at was
                cases was
            | tempdir | permissions | openLease | lockLease | openRecord | write | staged | close => cases leaves
  · intro q d ne was at_ stays present
    cases inside : o.entered with
    | true =>
        rw [(inv.pair p q _ _ (Ne.symm ne) is was at_).2 inside] at stays
        cases stays
    | false =>
        have same : (o.step x p X listed w.disk).2.file? X "owner.json" = w.disk.file? X "owner.json" :=
          Disk.file?_congr (Disk.dir?_of_root (takes.reads (Bool.not_eq_true _ ▸ inside)))
        rw [same]
        exact present
  · rintro q proc _ ne was ⟨⟩
    by_cases more : ∃ o', (o.step x p X listed w.disk).1 = .goes o'
    · obtain ⟨o', is'⟩ := more
      obtain ⟨inHand, entered, last⟩ := comes is'
      rw [goes o' is']
      cases proc with
      | downloader d =>
          refine ⟨trivial, fun at_ => ⟨fun has stays => ?_, fun has => ?_⟩⟩
          · obtain ⟨present, leaves⟩ := inv.pair p q _ _ (Ne.symm ne) is was at_
            have out : o.entered = false := by
              by_contra inside
              rw [leaves ((Bool.not_eq_false _).mp inside)] at stays
              cases stays
            have same : (o.step x p X listed w.disk).2.file? X "owner.json" = w.disk.file? X "owner.json" :=
              Disk.file?_congr (Disk.dir?_of_root (takes.reads (Bool.not_eq_true _ ▸ out)))
            rw [same]
            obtain was_ | ⟨_, there⟩ := inHand has
            · exact present was_ stays
            · exact there
          · obtain was_ | ⟨node, n, try_, free⟩ := entered has
            · exact (inv.pair p q _ _ (Ne.symm ne) is was at_).2 was_
            · exact leaving_of_free inv is try_ free ne was at_
      | collector c' =>
          cases c' with
          | root | next | done => exact ⟨trivial, trivial⟩
          | one Y left' bytes' o2 =>
              have never (same : X = Y) (one_ : o'.last = true) (two : o2.last = true) : False := by
                subst same
                obtain was_ | there := last one_
                · have := inv.pair p q _ _ (Ne.symm ne) is was rfl was_
                  rw [two] at this
                  cases this
                · rw [no_owner (inv.known q _ was) two] at there
                  cases there
              exact ⟨fun same two => Bool.eq_false_iff.mpr fun one_ => never same.symm one_ two,
                fun same one_ => Bool.eq_false_iff.mpr (never same one_)⟩
    · obtain ⟨left', bytes', same⟩ := ends (not_exists.mp more)
      rw [same]
      cases proc with
      | downloader d => exact ⟨trivial, trivial⟩
      | collector c' => cases c' <;> exact ⟨trivial, trivial⟩

section Downloader

variable {d d' : Downloader R} {a : Act}

section

variable (able : d.Able disk a)
include able

theorem place_some : ∃ X, d.place a = some X := by
  cases able <;> exact ⟨_, rfl⟩

theorem at_of_place (at_ : d.place a = some X) : d.at_ = some X ∨ ∃ b, a = .draw X b := by
  cases able with
  | tempdir =>
      cases at_
      exact .inr ⟨_, rfl⟩
  | _ => exact .inl at_

theorem leaving_stays (leaves : d.leaving = true) (goes : (d.step x p disk a).1 = some d') :
    d'.leaving = true := by
  cases able with
  | list =>
      simp only [Downloader.step] at goes
      split at goes <;> cases goes
      rfl
  | @clear X names =>
      cases names <;> cases goes <;> rfl
  | rmdir =>
      simp only [Downloader.step] at goes
      split at goes <;> cases goes
  | tempdir | permissions | openLease | lockLease | openRecord | write | written | create | append | moveAway | finished
  | permissionsFails | openLeaseFails | lockLeaseFails | openRecordFails | writeFails | close => cases leaves

/-- A downloader on its way out only removes. -/
theorem leaving_removes (leaves : d.leaving = true) (at_ : d.at_ = some X) (name : String)
    (file : File) (there : (d.step x p disk a).2.file? X name = some file) : disk.file? X name = some file := by
  cases able with
  | list =>
      simp only [Downloader.step] at there
      split at there <;> exact there
  | @clear Y names =>
      cases at_
      cases names with
      | nil => exact there
      | cons other names =>
          simp only [Downloader.step, Disk.file?_unlink] at there
          split at there
          · cases there
          · exact there
  | rmdir =>
      cases at_
      simp only [Downloader.step] at there
      split at there
      · split at there
        · rw [Disk.file?_of_none Disk.dir?_rmdir] at there
          cases there
        · exact there
      · exact there
  | tempdir | permissions | openLease | lockLease | openRecord | write | written | create | append | moveAway | finished
  | permissionsFails | openLeaseFails | lockLeaseFails | openRecordFails | writeFails | close => cases leaves

/-- While there is a record and the downloader is not on its way out, it only works on its assets. -/
theorem works (known : d.Local x base q disk) (stays : d.leaving = false) (at_ : d.at_ = some X)
    (owner : (disk.file? X "owner.json").isSome = true) (notAsset : name ∉ Downloader.assets) :
    (d.step x p disk a).2.file? X name = disk.file? X name := by
  have absent (h : disk.file? X "owner.json" = none) : False := by
    rw [h] at owner
    cases owner
  cases able with
  | tempdir => cases at_
  | permissions | openLease =>
      cases at_
      exact (absent (known.2.2 _)).elim
  | lockLease => rfl
  | openRecord =>
      cases at_
      exact (absent (known.2.2.2.1 _)).elim
  | create asset =>
      cases at_
      obtain ⟨dir, there, _⟩ := known.1.isPrivate
      simp only [Downloader.step, Disk.file?_create there]
      refine if_neg ?_
      rintro rfl
      exact notAsset asset
  | append =>
      simp only [Downloader.step]
      split <;> rfl
  | moveAway =>
      cases at_
      simp only [Downloader.step, Disk.file?_unlink]
      refine if_neg ?_
      rintro rfl
      exact notAsset (by decide)
  | write | written | finished | permissionsFails | openLeaseFails | lockLeaseFails | openRecordFails | writeFails
  | close => rfl
  | list | clear | rmdir => cases stays

end

/-- What a downloader does keeps the invariant, where the name it draws is one that nobody is at. -/
theorem downloads (inv : Inv x base w) (is : w.procs p = some (.downloader d)) (able : d.Able w.disk a)
    (drawn : ∀ X b, a = .draw X b → ∀ q proc, w.procs q = some proc → proc.at_ ≠ some X) :
    Inv x base (w.setProc p ((d.step x p w.disk a).1.map .downloader) (d.step x p w.disk a).2) := by
  obtain ⟨X, place⟩ := place_some able
  have known : d.Local x base p w.disk := inv.known p _ is
  have op : Op p X w.disk (d.step x p w.disk a).2 := Downloader.op able known place
  have alone (q : Pid) (other : Downloader R) (ne : q ≠ p) (was : w.procs q = some (.downloader other)) :
      other.at_ ≠ some X := by
    obtain at_ | ⟨b, draw⟩ := at_of_place able place
    · exact inv.pair p q _ _ (Ne.symm ne) is was X at_
    · exact drawn X b draw q _ was
  have beside {q : Pid} {Y : String} {left : List (String × Bool)} {bytes : Nat} {o : One} (ne : q ≠ p)
      (was : w.procs q = some (.collector (.one Y left bytes o))) (same : Y = X) :
      d.at_ = some Y ∧ (o.inHand = true → d.leaving = false → (w.disk.file? Y "owner.json").isSome = true) ∧
        (o.entered = true → d.leaving = true) := by
    subst same
    obtain at_ | ⟨b, draw⟩ := at_of_place able place
    · exact ⟨at_, inv.pair q p _ _ ne was is at_⟩
    · exact absurd rfl (drawn Y b draw q _ was)
  refine inv.of_op op ?_ ?_ ?_ ?_ ?_
  · intro proc next
    obtain ⟨d', goes, rfl⟩ := Option.map_eq_some_iff.mp next
    exact Downloader.known_step inv able known goes
  · intro node locked
    obtain ⟨d', goes, handle⟩ := Downloader.held_step able (fun node locked => by
      obtain ⟨proc, there, handle⟩ := inv.held node p locked
      rw [is] at there
      cases there
      exact handle) node locked
    exact ⟨_, congrArg (Option.map _) goes, handle⟩
  · intro q proc ne was at_
    cases proc with
    | downloader other => exact absurd at_ (alone q other ne was)
    | collector c =>
        cases c with
        | root | next | done => trivial
        | one Y left bytes o =>
            obtain ⟨here, present, leaves⟩ := beside ne was (Option.some.inj at_)
            have before : o.Local base q w.disk Y := inv.known q _ was
            cases out : d.leaving with
            | true =>
                exact One.Local.mono before op.nodes (leaving_removes able out here) op.files
                  fun node => (op.locks ne).mpr
            | false =>
                have notEntered : ¬ o.entered = true := fun inside => by
                  rw [leaves inside] at out
                  cases out
                cases o with
                | tryLock node n =>
                    refine Handle.mono before op.nodes (fun file there => ?_) op.files
                    rwa [works able known out here (present rfl out) (by decide)] at there
                | assets | record | drop | lease | rmdir => exact absurd rfl notEntered
                | metadata | list | sizes | recordMetadata | recordOpen | recordRead | leaseMetadata | leaseOpen => trivial
  · intro q other ne was at_
    exact absurd at_ (alone q other ne was)
  · intro q proc proc' ne was next
    obtain ⟨d', goes, rfl⟩ := Option.map_eq_some_iff.mp next
    have at_' : d'.at_ = some X := (Downloader.stays able goes).trans place
    cases proc with
    | downloader other =>
        refine ⟨fun Y at_ same => ?_, fun Y same at_ => ?_⟩
        · rw [at_', ← at_] at same
          exact alone q other ne was (same.symm ▸ rfl)
        · rw [at_', ← at_] at same
          exact alone q other ne was (same ▸ rfl)
    | collector c =>
        cases c with
        | root | next | done => exact ⟨trivial, trivial⟩
        | one Y left bytes o =>
            refine ⟨fun at_ => ?_, trivial⟩
            rw [at_'] at at_
            obtain ⟨here, present, leaves⟩ := beside ne was (Option.some.inj at_).symm
            refine ⟨fun inHand stays => ?_, fun inside => leaving_stays able (leaves inside) goes⟩
            have before : d.leaving = false := by
              by_contra out
              rw [leaving_stays able ((Bool.not_eq_false _).mp out) goes] at stays
              cases stays
            rw [works able known before here (present inHand before) (by decide)]
            exact present inHand before

end Downloader

theorem Disk.locks_forget : (disk.forget p).locks node = some q ↔ q ≠ p ∧ disk.locks node = some q := by
  simp only [Disk.forget]
  split
  · rename_i mine
    rw [mine]
    exact ⟨nofun, fun ⟨ne, same⟩ => absurd (Option.some.inj same).symm ne⟩
  · rename_i not_
    exact ⟨fun same => ⟨fun is => not_ (is ▸ same), same⟩, And.right⟩

/-- A process that is at no stage, and was at none, changes nothing. -/
theorem idle (inv : Inv x base w) (free : ∀ node, w.disk.locks node ≠ some p) {proc : Proc R}
    (known : proc.Local x base p w.disk)
    (single : ∀ other : Proc R, other.Pair w.disk proc ∧ proc.Pair w.disk other) :
    Inv x base (w.setProc p (some proc) w.disk) := by
  refine inv.of_op (X := "") .none ?_ (fun node locked => absurd locked (free node)) ?_ ?_ ?_
  · rintro _ ⟨⟩
    exact known
  · exact fun q other _ is _ => inv.known q other is
  · exact fun _ _ _ _ _ _ there => there
  · rintro q other _ _ _ ⟨⟩
    exact single other

theorem unlocked_of_handle (inv : Inv x base w) (none_ : ∀ proc, w.procs p = some proc → proc.handle = none) (node : Nat) :
    w.disk.locks node ≠ some p := fun locked => by
  obtain ⟨proc, is, handle⟩ := inv.held node p locked
  rw [none_ proc is] at handle
  cases handle

/-- A collector that is at no stage forms no pair. -/
theorem single_collector (nowhere : (Proc.collector c : Proc R).at_ = none) (other : Proc R) :
    other.Pair disk (.collector c) ∧ (Proc.collector c).Pair disk other := by
  cases c with
  | one => cases nowhere
  | root | next | done =>
      cases other with
      | downloader d => exact ⟨trivial, trivial⟩
      | collector c => cases c <;> exact ⟨trivial, trivial⟩

theorem collects (inv : Inv x base w) (is : w.procs p = some (.collector c)) (listed : List String) :
    Inv x base (w.setProc p (some (.collector (c.step x p listed w.disk).1)) (c.step x p listed w.disk).2) := by
  cases c with
  | one X left bytes o =>
      have one_ := inv.one listed is (c := ((Collector.one X left bytes o).step x p listed w.disk).1)
      simp only [Collector.step] at one_ ⊢
      generalize o.step x p X listed w.disk = result at one_ ⊢
      obtain ⟨outcome, disk'⟩ := result
      cases outcome with
      | goes o' =>
          refine one_ ?_ fun never => absurd rfl (never o')
          rintro _ ⟨⟩
          rfl
      | failed | reclaimed => exact one_ nofun fun _ => ⟨_, _, rfl⟩
  | root | done =>
      refine inv.idle (inv.unlocked_of_handle fun proc there => ?_) trivial (single_collector rfl)
      rw [is] at there
      cases there
      rfl
  | next left bytes =>
      have free := inv.unlocked_of_handle (p := p) fun proc there => by
        rw [is] at there
        cases there
        rfl
      cases left with
      | nil => exact inv.idle free trivial (single_collector rfl)
      | cons entry left =>
          obtain ⟨X, isDir⟩ := entry
          simp only [Collector.step]
          split
          · exact inv.idle free trivial (single_collector rfl)
          · refine inv.of_op (X := X) .none ?_ (fun node locked => absurd locked (free node)) ?_ ?_ ?_
            · rintro _ ⟨⟩
              trivial
            · exact fun q other _ is _ => inv.known q other is
            · exact fun _ _ _ _ _ _ there => there
            · rintro q other _ _ _ ⟨⟩
              cases other with
              | downloader d => exact ⟨trivial, fun _ => ⟨nofun, nofun⟩⟩
              | collector c => cases c <;> exact ⟨by first | trivial | exact fun _ _ => rfl, by first | trivial | exact nofun⟩

theorem kills (inv : Inv x base w) : Inv x base (w.setProc p none (w.disk.forget p)) where
  base_le := inv.base_le
  old := inv.old
  dirOld := inv.dirOld
  apart := inv.apart
  known := by
    intro q proc is
    obtain ⟨ne, is⟩ : q ≠ p ∧ w.procs q = some proc := by
      change (if q = p then none else w.procs q) = _ at is
      split at is
      · cases is
      · exact ⟨‹_›, is⟩
    have before := inv.known q proc is
    have locks (node : Nat) (locked : w.disk.locks node = some q) : (w.disk.forget p).locks node = some q :=
      Disk.locks_forget.mpr ⟨ne, locked⟩
    cases proc with
    | downloader d => exact Downloader.Local.congr before (fun _ _ => rfl) (fun _ _ _ _ _ _ => rfl) locks
    | collector c =>
        cases c with
        | root | next | done => trivial
        | one X left bytes o =>
            exact One.Local.mono before (Nat.le_refl _) (fun _ _ there => there) (fun _ _ _ there => .inl there) locks
  pair := by
    intro q r proc proc' ne is is'
    change (if q = p then none else w.procs q) = _ at is
    change (if r = p then none else w.procs r) = _ at is'
    split at is
    · cases is
    · split at is'
      · cases is'
      · exact inv.pair q r proc proc' ne is is'
  held := by
    intro node q locked
    obtain ⟨ne, locked⟩ := Disk.locks_forget.mp locked
    obtain ⟨proc, is, handle⟩ := inv.held node q locked
    exact ⟨proc, (if_neg ne).trans is, handle⟩

end Inv

/-- No downloader draws the name of a stage that some process is still at. -/
def World.Fresh (w : World R) (e : Event R) : Prop :=
  ∀ p X b, e = .act p (.draw X b) → ∀ q proc, w.procs q = some proc → proc.at_ ≠ some X

theorem Inv.step {w : World R} {e : Event R} (permitted : World.Permits x w e ∧ w.Fresh e) (inv : Inv x base w) :
    Inv x base (w.step x e) := by
  obtain ⟨permitted, fresh⟩ := permitted
  cases permitted with
  | @download p release free authentic =>
      refine inv.idle (inv.unlocked_of_handle fun proc is => ?_) authentic fun other => ?_
      · rw [free] at is
        cases is
      · cases other with
        | downloader d => exact ⟨fun _ _ => nofun, nofun⟩
        | collector c => cases c <;> exact ⟨by first | trivial | exact nofun, trivial⟩
  | @collect p free =>
      refine inv.idle (inv.unlocked_of_handle fun proc is => ?_) trivial (Inv.single_collector rfl)
      rw [free] at is
      cases is
  | @downloader p d a is able =>
      have next := inv.downloads is able fun X b draw => fresh p X b (draw ▸ rfl)
      simp only [World.step, World.act, is]
      exact next
  | @collector p c a is able =>
      have next := inv.collects is a.names
      simp only [World.step, World.act, is]
      exact next
  | kill => exact inv.kills

/-- Nothing is known of a disk that nobody has worked on. -/
theorem Inv.initial (h : w.Initial) : Inv x w.disk.nodes w where
  base_le := Nat.le_refl _
  old := h.files
  dirOld := h.dirs
  apart := fun X name file _ _ _ there _ _ => .inl (h.files X name file there)
  known := fun p proc is => by
    rw [h.procs p] at is
    cases is
  pair := fun p _ _ _ _ is => by
    rw [h.procs p] at is
    cases is
  held := fun node p locked => by
    rw [h.locks node] at locked
    cases locked

theorem Inv.run {w w' : World R} (run : Runs (World.step x) (fun w e => World.Permits x w e ∧ w.Fresh e) w w')
    (inv : Inv x base w) : Inv x base w' :=
  run.invariant (fun permitted inv => inv.step permitted) inv

end Khor.Update
