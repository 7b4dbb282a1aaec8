/-
Module: Khor.Node.JournalRules
Purpose: What holds of the files of a journal wherever its writer is stopped, what holds of the writer
  between two operations, and that each call and each operation keeps it.
Trusted boundary: a record is written on one line
Main exports: Disk, Rest, Seated, Extends, Request.holds
-/
import Khor.Node.Journal

namespace Khor.Node.Journal

open Script

section States

variable {N : Type} {x : Externals N} {identity : Identity} {s t : Machine N}

/-- The folder of the base that the pointer selects. -/
def Machine.selected (s : Machine N) : Folder := folderOf (s.active.map ActiveGeneration.generation)

/-- The lines an append leaves in the file. -/
def shown (x : Externals N) : Appended N → List Bytes
  | ⟨record, none⟩ => [x.toWriter record]
  | ⟨record, some n⟩ => lines ((line x record).take n)

/-- A published base. -/
structure Based (identity : Identity) (s : Machine N) (l : Folder) (dir : Dir) : Prop where
  manifest : ∃ m, dir.manifest = some m ∧ m.version = version ∧ m.identity = identity ∧
    folderOf m.generation = l
  records : ∃ i, dir.records = some i ∧ s.published l <+: whole (s.log i)

/-- The files of a journal at any moment. -/
structure Disk (x : Externals N) (identity : Identity) (s : Machine N) : Prop where
  based : ∀ l dir, l ≠ .pending → s.dirs l = some dir → Based identity s l dir
  known : ∀ l i, s.recordsAt l = some i → i < s.inodes
  apart : ∀ l l' i, s.recordsAt l = some i → s.recordsAt l' = some i → l = l'
  selected : ∀ a, s.active = some a → a.version = version ∧ validateGeneration a.generation = true ∧
    (s.dirs (.generation a.generation)).isSome
  shown : ∀ i, lines (s.files i) = (s.log i).flatMap (shown x)
  fresh : ∀ i, s.inodes ≤ i → s.files i = [] ∧ s.log i = []
  cuts : ∀ i, (torn (s.log i)).length ≤ s.kills i + if s.writing = some i then 1 else 0

/-- Records that end a turn, with no prompt of that turn after it. -/
def Finished (turn : String) (records : List (Record N)) : Prop :=
  ∃ before after outcome detail, records = before ++ .turn turn outcome detail :: after ∧
    ∀ text images files, Record.prompt turn text images files ∉ after

/-- A gap that names as interrupted a turn whose end precedes it. -/
def Stale (records : List (Record N)) : Prop :=
  ∃ before after opening turn incomplete,
    records = before ++ .gap opening (some turn) incomplete :: after ∧ Finished turn before

/-- The manifest of a base names a turn that its record file says has ended. -/
def Between (x : Externals N) (s : Machine N) : Prop :=
  ∃ l m i turn, l ≠ Folder.pending ∧ s.manifestAt l = some m ∧ s.recordsAt l = some i ∧
    m.activeTurn = some turn ∧ Finished turn (present x (s.log i))

/-- Records that say what became of a turn. -/
def Answers (turn : String) (records : List (Record N)) : Prop :=
  (∃ outcome detail, Record.turn turn outcome detail ∈ records) ∨
    ∃ opening incomplete, Record.gap opening (some turn) incomplete ∈ records

/-- The record file of the selected base says what became of a turn. -/
def Machine.Settled (x : Externals N) (s : Machine N) (turn : String) : Prop :=
  ∃ i, s.recordsAt s.selected = some i ∧ Answers turn (present x (s.log i))

/-- A turn is not forgotten: the manifest of the selected base names it, or the record file says what
became of it. -/
def Machine.Owes (x : Externals N) (s : Machine N) (turn : String) : Prop :=
  (∃ m, s.manifestAt s.selected = some m ∧ m.activeTurn = some turn) ∨ s.Settled x turn

/-- What holds wherever the writer is stopped. -/
structure Rest (x : Externals N) (identity : Identity) (owed : List String) (careful : Prop)
    (s : Machine N) : Prop where
  disk : Disk x identity s
  owes : ∀ turn ∈ owed, s.Owes x turn
  fair : careful → ∀ i, ¬ Stale (present x (s.log i))

/-- Record files only grow, and no published base goes. -/
def Extends (s t : Machine N) : Prop :=
  ∀ l dir, l ≠ .pending → s.dirs l = some dir → ∃ dir', t.dirs l = some dir' ∧
    dir'.records = dir.records ∧ ∀ i, dir.records = some i → s.files i <+: t.files i

/-- No published base changes. -/
def Unchanged (s t : Machine N) : Prop :=
  ∀ l dir, l ≠ .pending → s.dirs l = some dir →
    t.dirs l = some dir ∧ ∀ i, dir.records = some i → t.files i = s.files i

/-- The writer fills a base that is not published. -/
def Machine.Filling (s : Machine N) : Prop := ∃ j, s.journal = some j ∧ j.pending = true

/-- The terms on which the writer works: it is alone. -/
structure Own (x : Externals N) (load : Prop) (s t : Machine N) : Prop where
  extends_ : Extends s t
  unchanged : load ∨ s.Filling → Unchanged s t
  calm : s.journal = none → ¬ Between x s → ¬ Between x t

def terms (x : Externals N) (identity : Identity) (load : Prop) (owed : List String)
    (careful : Prop) : Terms (Call N) Reply Fault (Machine N) where
  does c s r t := s.MayDo x c r t
  others s t := s = t
  own := Own x load
  rest := Rest x identity owed careful
  refl _ := rfl
  trans h h' := h.trans h'
  keeps h rest := h ▸ rest

/-- The folder a writer works in. -/
def Writer.folder (j : Writer) : Folder :=
  if j.pending then .pending else folderOf j.manifest.generation

/-- A writer that can append and save. -/
structure Fit (identity : Identity) (s : Machine N) (j : Writer) : Prop where
  version_eq : j.manifest.version = version
  identity_eq : j.manifest.identity = identity
  ended : Ended (s.files j.file)
  records : s.recordsAt j.folder = some j.file
  first : j.pending = true → j.manifest.generation = none → s.active = none

/-- A writer between two operations: what it would save is what it did save. -/
structure Seated (identity : Identity) (s : Machine N) (j : Writer) : Prop extends
    Fit identity s j where
  prepared : j.pending = true → j.basePrepared = true → s.manifestAt .pending = some j.manifest
  mirror : j.pending = false → folderOf j.manifest.generation = s.selected ∧
    ∃ m, s.manifestAt s.selected = some m ∧ m.activeTurn = j.manifest.activeTurn

/-- A journal between two operations. -/
structure Idle (x : Externals N) (identity : Identity) (owed : List String) (careful : Prop)
    (s : Machine N) : Prop where
  rest : Rest x identity owed careful s
  quiet : s.writing = none
  seated : ∀ j, s.journal = some j → j.poisoned = false → Seated identity s j
  filling : s.Filling → owed = []

/-! ### The fields of a machine after a step -/

@[simp] theorem manifestAt_setDir_self (l : Folder) (d : Option Dir) :
    (s.setDir l d).manifestAt l = d.bind Dir.manifest := by
  simp [Machine.manifestAt, Machine.setDir]

@[simp] theorem recordsAt_setDir_self (l : Folder) (d : Option Dir) :
    (s.setDir l d).recordsAt l = d.bind Dir.records := by
  simp [Machine.recordsAt, Machine.setDir]

variable {l l' : Folder} {d : Option Dir}

theorem dirs_setDir_ne (ne : l' ≠ l) (d : Option Dir) : (s.setDir l d).dirs l' = s.dirs l' := by
  simp [Machine.setDir, ne]

theorem manifestAt_setDir_ne (ne : l' ≠ l) (d : Option Dir) : (s.setDir l d).manifestAt l' = s.manifestAt l' := by
  simp only [Machine.manifestAt, dirs_setDir_ne ne]

theorem recordsAt_setDir_ne (ne : l' ≠ l) (d : Option Dir) : (s.setDir l d).recordsAt l' = s.recordsAt l' := by
  simp only [Machine.recordsAt, dirs_setDir_ne ne]

section

variable (l : Folder) (d : Option Dir)

@[simp] theorem setDir_log : (s.setDir l d).log = s.log := rfl

@[simp] theorem setDir_files : (s.setDir l d).files = s.files := rfl

@[simp] theorem setDir_active : (s.setDir l d).active = s.active := rfl

@[simp] theorem setDir_journal : (s.setDir l d).journal = s.journal := rfl

@[simp] theorem setDir_writing : (s.setDir l d).writing = s.writing := rfl

@[simp] theorem setDir_selected : (s.setDir l d).selected = s.selected := rfl

@[simp] theorem setDir_self : (s.setDir l d).dirs l = d := by
  simp [Machine.setDir]

end

theorem setDir_same (same : s.dirs l = d) : s.setDir l d = s := by
  unfold Machine.setDir
  rw [← same, Function.update_eq_self]

theorem generation_ne_pending (g : String) : Folder.generation g ≠ .pending := nofun

theorem folderOf_ne_pending (generation : Option String) : folderOf generation ≠ .pending := by
  cases generation <;> exact nofun

theorem folderOf_inj {g g' : Option String} (same : folderOf g = folderOf g') : g = g' := by
  cases g <;> cases g' <;> simp_all [folderOf]

theorem selected_ne_pending : s.selected ≠ .pending := folderOf_ne_pending _

/-! ### Records and logs -/

theorem whole_append (log log' : List (Appended N)) : whole (log ++ log') = whole log ++ whole log' := by
  simp [whole]

theorem torn_append (log log' : List (Appended N)) : torn (log ++ log') = torn log ++ torn log' := by
  simp [torn]

theorem present_append (log log' : List (Appended N)) :
    present x (log ++ log') = present x log ++ present x log' := by
  simp [present]

theorem present_ended (r : Record N) : present x [⟨r, none⟩] = [r] := rfl

/-- What stands in full of one append. -/
theorem present_torn (r : Record N) (n : Nat) :
    present x [⟨r, some n⟩] = [] ∨ present x [⟨r, some n⟩] = [r] := by
  by_cases full : (x.toWriter r).length ≤ n
  · right; simp [present, full]
  · left; simp [present, full]

theorem Answers.mono {turn : String} {records records' : List (Record N)}
    (h : Answers turn records) (sub : ∀ r ∈ records, r ∈ records') : Answers turn records' := by
  rcases h with ⟨o, d, mem⟩ | ⟨o, c, mem⟩
  · exact .inl ⟨o, d, sub _ mem⟩
  · exact .inr ⟨o, c, sub _ mem⟩

/-- A record after the others makes no gap stale but itself. -/
theorem stale_concat {records : List (Record N)} {r : Record N} (fair : ¬ Stale records)
    (last : ∀ opening turn incomplete, r = .gap opening (some turn) incomplete →
      ¬ Finished turn records) : ¬ Stale (records ++ [r]) := by
  rintro ⟨before, after, opening, turn, incomplete, same, finished⟩
  rcases List.eq_nil_or_concat after with rfl | ⟨after, z, rfl⟩
  · obtain ⟨rfl, one⟩ := List.append_inj' same rfl
    exact last opening turn incomplete (by simpa using one) finished
  · have shorter : records ++ [r] = (before ++ .gap opening (some turn) incomplete :: after) ++ [z] := by
      simpa using same
    obtain ⟨rfl, _⟩ := List.append_inj' shorter rfl
    exact fair ⟨before, after, opening, turn, incomplete, rfl, finished⟩

theorem shown_ended (lawful : x.Lawful) (r : Record N) : lines (line x r) = shown x ⟨r, none⟩ :=
  lines_record (lawful.plain r)

/-! ### What a change of the machine keeps -/

section

variable (h : Disk x identity s)
include h

theorem Disk.of_same (active : t.active = s.active) (dirs : t.dirs = s.dirs) (files : t.files = s.files)
    (inodes : t.inodes = s.inodes) (log : t.log = s.log) (published : t.published = s.published)
    (cuts : ∀ i, (torn (s.log i)).length ≤ t.kills i + if t.writing = some i then 1 else 0) :
    Disk x identity t where
  based l dir ne there := by
    obtain ⟨manifest, i, records, known⟩ := h.based l dir ne (dirs ▸ there)
    exact ⟨manifest, i, records, by rw [published, log]; exact known⟩
  known l i there := by
    rw [inodes]
    exact h.known l i (by simpa only [Machine.recordsAt, dirs] using there)
  apart l l' i one two := by
    simp only [Machine.recordsAt, dirs] at one two
    exact h.apart l l' i one two
  selected a named := by
    rw [dirs]
    exact h.selected a (active ▸ named)
  shown i := by
    rw [files, log]
    exact h.shown i
  fresh i new := by
    rw [files, log]
    exact h.fresh i (inodes ▸ new)
  cuts i := by
    rw [log]
    exact cuts i

/-- The pending folder is nobody's base. -/
theorem Disk.setPending (known : ∀ i, d.bind Dir.records = some i → i < s.inodes)
    (apart : ∀ i l, d.bind Dir.records = some i → l ≠ .pending → s.recordsAt l ≠ some i) :
    Disk x identity (s.setDir .pending d) where
  based l dir ne there := by
    rw [dirs_setDir_ne ne] at there
    obtain ⟨manifest, records⟩ := h.based l dir ne there
    exact ⟨manifest, records⟩
  known l i there := by
    by_cases same : l = .pending
    · subst same
      rw [recordsAt_setDir_self] at there
      exact known i there
    · rw [recordsAt_setDir_ne same] at there
      exact h.known l i there
  apart l l' i one two := by
    by_cases same : l = .pending
    · by_cases same' : l' = .pending
      · rw [same, same']
      · subst same
        rw [recordsAt_setDir_self] at one
        rw [recordsAt_setDir_ne same'] at two
        exact absurd two (apart i l' one same')
    · rw [recordsAt_setDir_ne same] at one
      by_cases same' : l' = .pending
      · subst same'
        rw [recordsAt_setDir_self] at two
        exact absurd one (apart i l two same)
      · rw [recordsAt_setDir_ne same'] at two
        exact h.apart l l' i one two
  selected a named := by
    rw [dirs_setDir_ne (generation_ne_pending _)]
    exact h.selected a named
  shown := h.shown
  fresh := h.fresh
  cuts := h.cuts

/-- A manifest saved in a folder, where it is one of that folder. -/
theorem Disk.setManifest {m : Manifest} (dir : Dir) (there : s.dirs l = some dir)
    (good : l ≠ .pending → m.version = version ∧ m.identity = identity ∧ folderOf m.generation = l) :
    Disk x identity (s.setDir l (some { dir with manifest := some m })) := by
  have records : ∀ k, (s.setDir l (some { dir with manifest := some m })).recordsAt k
      = s.recordsAt k := by
    intro k
    by_cases same : k = l
    · subst same
      rw [recordsAt_setDir_self]
      simp [Machine.recordsAt, there]
    · exact recordsAt_setDir_ne same _
  exact {
    based := fun k dir' ne there' => by
      by_cases same : k = l
      · subst same
        rw [setDir_self] at there'
        cases there'
        obtain ⟨v, named, folder⟩ := good ne
        obtain ⟨_, records⟩ := h.based k dir ne there
        exact ⟨⟨m, rfl, v, named, folder⟩, records⟩
      · rw [dirs_setDir_ne same] at there'
        obtain ⟨manifest, records⟩ := h.based k dir' ne there'
        exact ⟨manifest, records⟩
    known := fun k i at_ => h.known k i (records k ▸ at_)
    apart := fun k k' i one two => h.apart k k' i (records k ▸ one) (records k' ▸ two)
    selected := fun a named => by
      obtain ⟨v, valid, chosen⟩ := h.selected a named
      refine ⟨v, valid, ?_⟩
      by_cases same : Folder.generation a.generation = l
      · rw [same, setDir_self]
        rfl
      · rw [dirs_setDir_ne same]
        exact chosen
    shown := h.shown
    fresh := h.fresh
    cuts := h.cuts }

/-- The record file that a writer creates. -/
theorem Disk.newRecords (dir : Dir) :
    Disk x identity { s.setDir .pending (some { dir with records := some s.inodes }) with
      inodes := s.inodes + 1 } := by
  have next : Disk x identity { s with inodes := s.inodes + 1 } :=
    { h with
      based := fun l dir ne there => by
        obtain ⟨manifest, records⟩ := h.based l dir ne there
        exact ⟨manifest, records⟩
      known := fun l i there => Nat.lt_succ_of_lt (h.known l i there)
      fresh := fun i new => h.fresh i (by exact Nat.le_of_succ_le new) }
  refine next.setPending (d := some { dir with records := some s.inodes }) (fun i same => ?_)
    fun i l same ne there => ?_
  · cases same
    exact Nat.lt_succ_self _
  · cases same
    exact absurd (h.known l _ there) (Nat.lt_irrefl _)

/-- The pending folder becomes a published base. -/
theorem Disk.publish {m : Manifest} {i : Nat}
    (pending : s.dirs .pending = some ⟨some m, some i⟩) (free : s.dirs l = none)
    (good : m.version = version ∧ m.identity = identity ∧ folderOf m.generation = l) (ne : l ≠ .pending) :
    Disk x identity { (s.setDir .pending none).setDir l (some ⟨some m, some i⟩) with
      published := Function.update s.published l (whole (s.log i)) } := by
  have records : ∀ k, k ≠ l → ((s.setDir .pending none).setDir l (some ⟨some m, some i⟩)).recordsAt k
      = if k = .pending then none else s.recordsAt k := by
    intro k other
    rw [recordsAt_setDir_ne other]
    by_cases same : k = .pending
    · subst same
      rw [recordsAt_setDir_self, if_pos rfl]
      rfl
    · rw [recordsAt_setDir_ne same, if_neg same]
  have was : s.recordsAt .pending = some i := by simp [Machine.recordsAt, pending]
  -- The folder of a record file before the renaming.
  have from_ : ∀ k j, ((s.setDir .pending none).setDir l (some ⟨some m, some i⟩)).recordsAt k = some j →
      s.recordsAt (if k = l then .pending else k) = some j := by
    intro k j there
    by_cases same : k = l
    · subst same
      rw [recordsAt_setDir_self] at there
      rw [if_pos rfl, was]
      exact there
    · rw [records k same] at there
      rw [if_neg same]
      by_cases pend : k = .pending
      · rw [if_pos pend] at there
        cases there
      · rw [if_neg pend] at there
        exact there
  exact {
    based := fun k dir other there => by
      by_cases same : k = l
      · subst same
        simp only [setDir_self, Option.some.injEq] at there
        subst there
        exact ⟨⟨m, rfl, good⟩, i, rfl, by simp⟩
      · simp only [dirs_setDir_ne same, dirs_setDir_ne other] at there
        obtain ⟨manifest, j, recorded, known⟩ := h.based k dir other there
        exact ⟨manifest, j, recorded, by simpa [Function.update_of_ne same] using known⟩
    known := fun k j there => h.known _ j (from_ k j there)
    apart := fun k k' j one two => by
      have same := h.apart _ _ j (from_ k j one) (from_ k' j two)
      by_cases a : k = l <;> by_cases b : k' = l
      · rw [a, b]
      · rw [if_pos a, if_neg b] at same
        have gone := (records k' b).symm.trans two
        rw [if_pos same.symm] at gone
        cases gone
      · rw [if_neg a, if_pos b] at same
        have gone := (records k a).symm.trans one
        rw [if_pos same] at gone
        cases gone
      · rw [if_neg a, if_neg b] at same
        exact same
    selected := fun a named => by
      obtain ⟨v, valid, chosen⟩ := h.selected a named
      refine ⟨v, valid, ?_⟩
      have other : Folder.generation a.generation ≠ l := by
        rintro rfl
        rw [free] at chosen
        cases chosen
      simp only [dirs_setDir_ne other, dirs_setDir_ne (generation_ne_pending _)]
      exact chosen
    shown := h.shown
    fresh := h.fresh
    cuts := h.cuts }

/-- Bytes and appends in the record file of a folder. -/
theorem Disk.relogged (i : Nat) (bytes : Bytes) (log : List (Appended N))
    (writing : Option Nat) (known : i < s.inodes) (same : lines bytes = log.flatMap (Journal.shown x))
    (grown : whole (s.log i) <+: whole log)
    (cut : (torn log).length ≤ s.kills i + if writing = some i then 1 else 0)
    (own : s.writing = none ∨ s.writing = some i) :
    Disk x identity { s with
      files := Function.update s.files i bytes
      log := Function.update s.log i log
      writing := writing } where
  based l dir ne there := by
    obtain ⟨manifest, k, records, kept⟩ := h.based l dir ne there
    refine ⟨manifest, k, records, ?_⟩
    by_cases here : k = i
    · subst here
      simpa using kept.trans grown
    · simpa [Function.update_of_ne here] using kept
  known := h.known
  apart := h.apart
  selected := h.selected
  shown k := by
    by_cases here : k = i
    · subst here
      simpa using same
    · simpa [Function.update_of_ne here] using h.shown k
  fresh k new := by
    have ne : k ≠ i := fun eq => absurd known (Nat.not_lt.mpr (eq ▸ new))
    simpa [Function.update_of_ne ne] using h.fresh k new
  cuts k := by
    by_cases here : k = i
    · subst here
      simpa using cut
    · have was := h.cuts k
      simp only [Function.update_of_ne here]
      rcases own with none_ | some_
      · rw [none_, if_neg nofun] at was
        omega
      · rw [some_, if_neg fun eq => here (Option.some.inj eq).symm] at was
        omega

end

theorem Settled.mono {turn : String} (h : s.Settled x turn) (selected : t.selected = s.selected)
    (records : t.recordsAt s.selected = s.recordsAt s.selected)
    (log : ∀ i r, r ∈ present x (s.log i) → r ∈ present x (t.log i)) : t.Settled x turn := by
  obtain ⟨i, at_, answers⟩ := h
  exact ⟨i, by rw [selected, records]; exact at_, answers.mono (log i)⟩

theorem Owes.mono {turn : String} (h : s.Owes x turn) (selected : t.selected = s.selected)
    (manifest : t.manifestAt s.selected = s.manifestAt s.selected)
    (records : t.recordsAt s.selected = s.recordsAt s.selected)
    (log : ∀ i r, r ∈ present x (s.log i) → r ∈ present x (t.log i)) : t.Owes x turn := by
  rcases h with ⟨m, at_, active⟩ | settled
  · exact .inl ⟨m, by rw [selected, manifest]; exact at_, active⟩
  · exact .inr (Settled.mono settled selected records log)

section Keeps

variable {load : Prop} {owed : List String} {careful : Prop}

/-- A step that changes no published base and no log. -/
theorem Rest.aside (h : Rest x identity owed careful s) (disk : Disk x identity t)
    (active : t.active = s.active) (dirs : ∀ l, l ≠ .pending → t.dirs l = s.dirs l)
    (log : t.log = s.log) : Rest x identity owed careful t where
  disk := disk
  owes turn mem := by
    have selected : t.selected = s.selected := by simp only [Machine.selected, active]
    have same := dirs s.selected selected_ne_pending
    refine Owes.mono (h.owes turn mem) selected ?_ ?_ fun i r mem => by rw [log]; exact mem
    · simp only [Machine.manifestAt, same]
    · simp only [Machine.recordsAt, same]
  fair now i := by
    rw [log]
    exact h.fair now i

theorem Own.aside (dirs : ∀ l, l ≠ .pending → t.dirs l = s.dirs l) (files : t.files = s.files)
    (log : t.log = s.log) : Own x load s t where
  extends_ l dir ne there := ⟨dir, (dirs l ne).trans there, rfl, fun i _ => files ▸ List.prefix_rfl⟩
  unchanged _ l dir ne there := ⟨(dirs l ne).trans there, fun i _ => by rw [files]⟩
  calm _ still := by
    rintro ⟨l, m, i, turn, ne, manifest, records, active, finished⟩
    have same := dirs l ne
    simp only [Machine.manifestAt, Machine.recordsAt, same] at manifest records
    exact still ⟨l, m, i, turn, ne, manifest, records, active, log ▸ finished⟩

theorem Own.refl : Own x load s s := Own.aside (fun _ _ => rfl) rfl rfl

/-- Bytes at the end of the writer's file. -/
theorem Own.grown (disk : Disk x identity s) {j : Writer} (journal : s.journal = some j)
    (records : s.recordsAt j.folder = some j.file) (loading : load → j.pending = true)
    (bytes : Bytes) (dirs : t.dirs = s.dirs)
    (files : t.files = Function.update s.files j.file (s.files j.file ++ bytes)) : Own x load s t where
  extends_ l dir ne there := by
    refine ⟨dir, by rw [dirs]; exact there, rfl, fun i _ => ?_⟩
    rw [files]
    by_cases here : i = j.file
    · subst here
      simp
    · exact ⟨[], by rw [List.append_nil, Function.update_of_ne here]⟩
  unchanged filling l dir ne there := by
    have pending : j.pending = true := by
      rcases filling with now | ⟨j', same, pending⟩
      · exact loading now
      · rw [journal] at same
        cases same
        exact pending
    have folder : j.folder = .pending := by simp [Writer.folder, pending]
    refine ⟨by rw [dirs]; exact there, fun i recorded => ?_⟩
    have other : i ≠ j.file := by
      rintro rfl
      have at_ : s.recordsAt l = some j.file := by simp [Machine.recordsAt, there, recorded]
      exact ne ((disk.apart l _ _ at_ records).trans folder)
    rw [files, Function.update_of_ne other]
  calm gone := by
    rw [journal] at gone
    cases gone

/-- The manifest of the writer's folder. -/
theorem Own.saved {j : Writer} (journal : s.journal = some j) (loading : load → j.pending = true)
    {dir : Dir} {m : Option Manifest} (there : s.dirs j.folder = some dir) :
    Own x load s (s.setDir j.folder (some { dir with manifest := m })) where
  extends_ l dir' ne there' := by
    by_cases same : l = j.folder
    · subst same
      rw [there] at there'
      cases there'
      exact ⟨{ dir with manifest := m }, setDir_self _ _, rfl, fun i _ => List.prefix_rfl⟩
    · exact ⟨dir', (dirs_setDir_ne same _).trans there', rfl, fun i _ => List.prefix_rfl⟩
  unchanged filling l dir' ne there' := by
    have pending : j.pending = true := by
      rcases filling with now | ⟨j', same, pending⟩
      · exact loading now
      · rw [journal] at same
        cases same
        exact pending
    have folder : j.folder = .pending := by simp [Writer.folder, pending]
    exact ⟨(dirs_setDir_ne (folder ▸ ne) _).trans there', fun i _ => rfl⟩
  calm gone := by
    rw [journal] at gone
    cases gone

/-- A base comes to those that are published. -/
theorem Own.published {j : Writer} (journal : s.journal = some j) {published : Folder → List (Record N)}
    (free : s.dirs l = none) : Own x load s { (s.setDir .pending none).setDir l d with published := published } where
  extends_ k dir ne there := by
    have other : k ≠ l := by
      rintro rfl
      rw [free] at there
      cases there
    exact ⟨dir, (dirs_setDir_ne other _).trans ((dirs_setDir_ne ne _).trans there), rfl,
      fun i _ => List.prefix_rfl⟩
  unchanged _ k dir ne there := by
    have other : k ≠ l := by
      rintro rfl
      rw [free] at there
      cases there
    exact ⟨(dirs_setDir_ne other _).trans ((dirs_setDir_ne ne _).trans there), fun i _ => rfl⟩
  calm gone := by
    rw [journal] at gone
    cases gone

end Keeps

end States

/-! ### The calls -/

section Calls

variable {N : Type} {x : Externals N} {identity : Identity} {load : Prop} {owed : List String}
  {careful : Prop} {s t : Machine N} {α : Type}

/-- Calls that change nothing. -/
def Call.Reads : Call N → Prop
  | .readActive | .readManifest _ | .save _ | .present _ | .readDir _ | .createGenerations
  | .openRecords _ | .length _ | .last _ | .sync | .get => True
  | _ => False

variable {c : Call N}

theorem mayDo_reads (reads : c.Reads) {r : Except Fault (Reply c)} (does : s.MayDo x c r t) : t = s := by
  rcases does with does | ⟨_, same, _⟩
  · cases c <;> first | exact does.1 | exact reads.elim
  · exact same

theorem reads_holds (reads : c.Reads) (rest : Rest x identity owed careful s) :
    (sys c).Holds (terms x identity load owed careful) (fun r t => t = s ∧ s.MayDo x c r s) s := by
  refine holds_sys.2 ⟨rest, fun s' answer t same does => ?_⟩
  obtain rfl : s = s' := same
  obtain rfl := mayDo_reads reads does
  exact ⟨Own.refl, rest, rfl, does⟩

/-- Go on after a call that changes nothing. -/
theorem reads_bind (reads : c.Reads) (rest : Rest x identity owed careful s) {f : Reply c → Op N α}
    {post : Except Fault α → Machine N → Prop}
    (ok : ∀ a, s.MayDo x c (.ok a) s → (f a).Holds (terms x identity load owed careful) post s)
    (error : ∀ e, s.MayDo x c (.error e) s → post (.error e) s) :
    (sys c >>= f).Holds (terms x identity load owed careful) post s := by
  refine Holds.bind (reads_holds reads rest) (fun a t _ now => ?_) fun e t _ now => ?_
  · obtain ⟨rfl, does⟩ := now
    exact ok a does
  · obtain ⟨rfl, does⟩ := now
    exact error e does

/-- The writer in memory. -/
theorem get_bind {j : Writer} (journal : s.journal = some j) (rest : Rest x identity owed careful s)
    {f : Writer → Op N α} {post : Except Fault α → Machine N → Prop}
    (next : (f j).Holds (terms x identity load owed careful) post s) :
    (sys .get >>= f).Holds (terms x identity load owed careful) post s := by
  refine reads_bind (c := .get) trivial rest (fun a does => ?_) fun e does => ?_
  · rcases does with ⟨_, does⟩ | ⟨fails, _⟩
    · rw [journal] at does
      cases does
      exact next
    · exact fails.elim
  · rcases does with ⟨_, does⟩ | ⟨fails, _⟩
    · rw [journal] at does
      cases does
    · exact fails.elim

theorem Rest.memory (h : Rest x identity owed careful s) (j : Option Writer) :
    Rest x identity owed careful { s with journal := j } :=
  h.aside (h.disk.of_same rfl rfl rfl rfl rfl rfl h.disk.cuts) rfl (fun _ _ => rfl) rfl

theorem set_holds (j : Writer) (rest : Rest x identity owed careful s) :
    (sys (.set j)).Holds (terms x identity load owed careful)
      (fun r t => ∃ a, r = .ok a ∧ t = { s with journal := some j }) s := by
  refine holds_sys.2 ⟨rest, fun s' answer t same does => ?_⟩
  obtain rfl : s = s' := same
  rcases does with ⟨rfl, rfl⟩ | ⟨fails, _⟩
  · exact ⟨Own.aside (fun _ _ => rfl) rfl rfl, rest.memory _, (), rfl, rfl⟩
  · exact fails.elim

theorem forget_holds (rest : Rest x identity owed careful s) :
    (sys .forget).Holds (terms x identity load owed careful)
      (fun r t => ∃ a, r = .ok a ∧ t = { s with journal := none }) s := by
  refine holds_sys.2 ⟨rest, fun s' answer t same does => ?_⟩
  obtain rfl : s = s' := same
  rcases does with ⟨rfl, rfl⟩ | ⟨fails, _⟩
  · exact ⟨Own.aside (fun _ _ => rfl) rfl rfl, rest.memory _, (), rfl, rfl⟩
  · exact fails.elim

/-- Another pending folder, or none. -/
theorem Rest.setPending (h : Rest x identity owed careful s) {d : Option Dir}
    (known : ∀ i, d.bind Dir.records = some i → i < s.inodes)
    (apart : ∀ i l, d.bind Dir.records = some i → l ≠ .pending → s.recordsAt l ≠ some i) :
    Rest x identity owed careful (s.setDir .pending d) :=
  h.aside (h.disk.setPending known apart) rfl (fun _ ne => dirs_setDir_ne ne _) rfl

/-- A pending folder with no other record file than it had. -/
theorem Rest.shrinkPending (h : Rest x identity owed careful s) {d : Option Dir}
    (sub : ∀ i, d.bind Dir.records = some i → s.recordsAt .pending = some i) :
    Rest x identity owed careful (s.setDir .pending d) :=
  h.setPending (fun i same => h.disk.known _ i (sub i same)) fun i l same ne at_ =>
    ne (h.disk.apart l _ i at_ (sub i same))

theorem Own.setPending (d : Option Dir) : Own x load s (s.setDir .pending d) :=
  Own.aside (fun _ ne => dirs_setDir_ne ne _) rfl rfl

/-- What holds after a call that succeeds, and after one that fails. -/
def Told (ok : α → Machine N → Prop) (error : Fault → Machine N → Prop) : Except Fault α → Machine N → Prop
  | .ok a => ok a
  | .error e => error e

/-- Removing the pending folder takes all of it, or fails before it began. -/
theorem removeDirAll_holds (rest : Rest x identity owed careful s) :
    (removeDirAll .pending).Holds (terms x identity load owed careful)
      (fun r t => match r with
        | .ok _ => t = s.setDir .pending none
        | .error e => t = s ∧ (e = .notFound → s.dirs .pending = none)) s := by
  refine reads_bind (c := .readDir .pending) trivial rest (fun files does => ?_) fun e does => ?_
  · rcases does with ⟨_, does⟩ | ⟨_, _, text, same⟩
    · cases there : s.dirs .pending with
      | none =>
          rw [there] at does
          cases does
      | some dir =>
          rw [there] at does
          obtain ⟨_, same, nodup, names⟩ := does
          cases same
          -- What is left to remove is what is left in the folder.
          let left (l : List FileName) (t : Machine N) : Prop :=
            ∃ dir, t = s.setDir .pending (some dir) ∧ l.Nodup ∧ (∀ f, f ∈ l ↔ dir.has f = true) ∧
              ∀ i, dir.records = some i → s.recordsAt .pending = some i
          refine Holds.bind (Q := Told (fun _ => left []) fun _ _ => False) ?_ (fun _ t rest' now => ?_) fun e t _ now => now.elim
          · refine Holds.forM (I := left) (fun f l t rest' now => ?_) (fun t _ now => now) rest
              ⟨dir, (setDir_same there).symm, nodup, names, fun i at_ => by
                simp [Machine.recordsAt, there, at_]⟩
            obtain ⟨dir, rfl, nodup, names, sub⟩ := now
            refine holds_sys.2 ⟨rest', fun s' answer t same does => ?_⟩
            obtain rfl : s.setDir .pending (some dir) = s' := same
            have has : dir.has f = true := (names f).1 (.head _)
            rcases does with does | ⟨fails, _⟩
            · simp only [Machine.Does, setDir_self, has, if_true] at does
              obtain ⟨rfl, rfl⟩ := does
              have sub' : ∀ i, (dir.remove f).records = some i → s.recordsAt .pending = some i := by
                intro i at_
                cases f with
                | manifest => exact sub i at_
                | records => cases at_
              have same : (s.setDir .pending (some dir)).setDir .pending (some (dir.remove f)) =
                  s.setDir .pending (some (dir.remove f)) := by
                simp [Machine.setDir]
              rw [same]
              refine ⟨?_, rest.shrinkPending sub', dir.remove f, rfl, nodup.of_cons, fun g => ?_, sub'⟩
              · rw [← same]
                exact Own.setPending _
              · have mem := names g
                rw [List.mem_cons] at mem
                cases f <;> cases g <;> simp_all [Dir.has, Dir.remove]
            · exact fails.elim
          · obtain ⟨dir, rfl, _, names, _⟩ := now
            refine holds_sys.2 ⟨rest', fun s' answer t same does => ?_⟩
            obtain rfl : s.setDir .pending (some dir) = s' := same
            have empty : dir = ⟨none, none⟩ := by
              have m := names .manifest
              have r := names .records
              cases dir
              simp_all [Dir.has]
            rcases does with does | ⟨fails, _⟩
            · simp only [Machine.Does, setDir_self, empty, if_true] at does
              obtain ⟨rfl, rfl⟩ := does
              have same : (s.setDir .pending (some ⟨none, none⟩)).setDir .pending none =
                  s.setDir .pending none := by
                simp [Machine.setDir]
              rw [empty, same]
              refine ⟨?_, rest.shrinkPending (by simp), rfl⟩
              rw [← same]
              exact Own.setPending _
            · exact fails.elim
    · cases same
  · rcases does with ⟨_, does⟩ | ⟨_, _, text, same⟩
    · cases there : s.dirs .pending with
      | none => exact ⟨rfl, fun _ => rfl⟩
      | some dir =>
          rw [there] at does
          obtain ⟨_, same, _⟩ := does
          cases same
    · cases same
      exact ⟨rfl, by simp⟩

theorem removePending_holds (rest : Rest x identity owed careful s) :
    removePending.Holds (terms x identity load owed careful)
      (fun r t => match r with
        | .ok _ => t = s.setDir .pending none
        | .error _ => t = s) s := by
  refine Holds.attempt ((removeDirAll_holds rest).mono fun r t rest' now => ?_)
  cases r with
  | ok a => exact ⟨rest', now⟩
  | error e =>
      obtain ⟨rfl, gone⟩ := now
      cases e with
      | notFound => exact ⟨rest', (setDir_same (gone rfl)).symm⟩
      | other text => exact ⟨rest', rfl⟩

end Calls

/-! ### The steps of a writer -/

section Steps

variable {N : Type} {x : Externals N} {identity : Identity} {load : Prop} {owed : List String}
  {careful : Prop} {s t : Machine N} {α : Type} {j : Writer}

/-- The machine after an append. -/
def Machine.appended (x : Externals N) (s : Machine N) (i : Nat) (r : Record N) : Machine N :=
  (s.push i (line x r)).setLog i (s.log i ++ [⟨r, none⟩])

/-- The machine after the first part of an append. -/
def Machine.written (x : Externals N) (s : Machine N) (i : Nat) (r : Record N) (n : Nat) : Machine N :=
  { (s.push i ((line x r).take n)).setLog i (s.log i ++ [⟨r, some n⟩]) with writing := some i }

/-- A writer that is not used again. -/
def Failed (j : Writer) (t : Machine N) : Prop :=
  t.writing = none ∧ ∃ j', t.journal = some j' ∧ j'.poisoned = true ∧
    (j'.pending = true → j.pending = true)

/-- A gap names only a turn that had not ended. -/
def Fair (careful : Prop) (x : Externals N) (r : Record N) (log : List (Appended N)) : Prop :=
  careful → ∀ opening turn incomplete, r = .gap opening (some turn) incomplete →
    ¬ Finished turn (present x log)

variable {r : Record N}

theorem Fair.plain (plain : ∀ opening turn incomplete, r ≠ .gap opening (some turn) incomplete)
    (log : List (Appended N)) : Fair careful x r log :=
  fun _ opening turn incomplete same => absurd same (plain opening turn incomplete)

theorem Rest.relogged (h : Rest x identity owed careful s) (disk : Disk x identity t)
    (active : t.active = s.active) (dirs : t.dirs = s.dirs) (i : Nat) (log : List (Appended N))
    (logs : t.log = Function.update s.log i log) (grown : ∀ r, r ∈ present x (s.log i) → r ∈ present x log)
    (fair : careful → ¬ Stale (present x log)) : Rest x identity owed careful t where
  disk := disk
  owes turn mem := by
    refine Owes.mono (h.owes turn mem) ?_ ?_ ?_ fun k r stands => ?_
    · simp only [Machine.selected, active]
    · simp only [Machine.manifestAt, dirs]
    · simp only [Machine.recordsAt, dirs]
    · rw [logs]
      by_cases here : k = i
      · subst here
        rw [Function.update_self]
        exact grown r stands
      · rw [Function.update_of_ne here]
        exact stands
  fair now k := by
    rw [logs]
    by_cases here : k = i
    · subst here
      rw [Function.update_self]
      exact fair now
    · rw [Function.update_of_ne here]
      exact h.fair now k

/-- Wherever an append is stopped, the record file reads as the appends to it. -/
theorem Rest.written (lawful : x.Lawful) (h : Rest x identity owed careful s) (quiet : s.writing = none) {i : Nat}
    (known : i < s.inodes) (ended : Ended (s.files i)) (fair : Fair careful x r (s.log i)) (n : Nat) :
    Rest x identity owed careful (s.written x i r n) ∧
      Rest x identity owed careful (s.appended x i r) := by
  have cut := h.disk.cuts i
  rw [quiet, if_neg nofun] at cut
  have unfair : ∀ now : careful, ¬ Stale (present x (s.log i) ++ [r]) := fun now =>
    stale_concat (h.fair now i) (fair now)
  constructor
  · have disk := h.disk.relogged i (s.files i ++ (line x r).take n) (s.log i ++ [⟨r, some n⟩]) (some i)
      known ?_ ?_ ?_ (.inl quiet)
    · refine h.relogged disk rfl rfl i (s.log i ++ [⟨r, some n⟩]) rfl (fun r' mem => ?_) fun now => ?_
      · rw [present_append]
        exact List.mem_append_left _ mem
      · rw [present_append]
        rcases present_torn (x := x) r n with none_ | one
        · rw [none_, List.append_nil]
          exact h.fair now i
        · rw [one]
          exact unfair now
    · rw [lines_append ended, h.disk.shown i, List.flatMap_append, List.flatMap_singleton]
      rfl
    · rw [whole_append]
      exact List.prefix_append _ _
    · rw [torn_append, List.length_append, if_pos rfl]
      exact Nat.add_le_add cut (Nat.le_refl 1)
  · have disk := h.disk.relogged i (s.files i ++ line x r) (s.log i ++ [⟨r, none⟩]) s.writing known
      ?_ ?_ ?_ (.inl quiet)
    · refine h.relogged disk rfl rfl i (s.log i ++ [⟨r, none⟩]) rfl (fun r' mem => ?_) fun now => ?_
      · rw [present_append]
        exact List.mem_append_left _ mem
      · rw [present_append, present_ended]
        exact unfair now
    · rw [lines_append ended, h.disk.shown i, List.flatMap_append, List.flatMap_singleton, shown_ended lawful]
    · rw [whole_append]
      exact List.prefix_append _ _
    · rw [torn_append, List.length_append]
      exact Nat.le_add_right_of_le cut

/-- What is left of the line completes it. -/
theorem flushed (i : Nat) (r : Record N) (n : Nat) (quiet : s.writing = none) :
    { (((s.written x i r n).push i ((line x r).drop n)).setLog i
        (((s.written x i r n).log i).dropLast ++ [⟨r, none⟩])) with writing := none } =
      s.appended x i r := by
  simp [Machine.written, Machine.appended, Machine.push, Machine.setLog, quiet]

theorem write_bind (lawful : x.Lawful) (journal : s.journal = some j) (quiet : s.writing = none)
    (loading : load → j.pending = true) (ended : Ended (s.files j.file))
    (records : s.recordsAt j.folder = some j.file) (fair : Fair careful x r (s.log j.file))
    (rest : Rest x identity owed careful s) {f : Unit → Op N α} {post : Except Fault α → Machine N → Prop}
    (next : (f ()).Holds (terms x identity load owed careful) post (s.appended x j.file r)) :
    (sys (.write j.file r) >>= fun _ => sys (.flush j.file) >>= f).Holds
      (terms x identity load owed careful) post s := by
  have rests := rest.written lawful quiet (rest.disk.known _ _ records) ended fair
  refine Holds.proceed (Q := fun _ t => ∃ n, t = s.written x j.file r n)
    (holds_sys.2 ⟨rest, fun s' answer t same does => ?_⟩) fun _ t _ now => ?_
  · obtain rfl : s = s' := same
    rcases does with ⟨rfl, n, _, rfl⟩ | ⟨fails, _⟩
    · refine ⟨Own.grown rest.disk journal records loading _ rfl rfl, (rests n).1, (), rfl, n, rfl⟩
    · exact fails.elim
  · obtain ⟨n, rfl⟩ := now
    refine Holds.proceed (Q := fun _ t => t = s.appended x j.file r)
      (holds_sys.2 ⟨(rests n).1, fun s' answer t same does => ?_⟩) fun _ t _ now => now ▸ next
    obtain rfl : s.written x j.file r n = s' := same
    rcases does with does | ⟨fails, _⟩
    · have last : ((s.written x j.file r n).log j.file).getLast? = some ⟨r, some n⟩ := by
        simp [Machine.written, Machine.setLog]
      simp only [Machine.Does, last] at does
      obtain ⟨rfl, rfl⟩ := does
      rw [flushed j.file r n quiet]
      refine ⟨?_, (rests n).2, (), rfl, rfl⟩
      refine Own.grown (rests n).1.disk journal records loading ((line x r).drop n) rfl ?_
      simp [Machine.written, Machine.appended, Machine.push, Machine.setLog]
    · exact fails.elim

theorem writable_holds (journal : s.journal = some j) (rest : Rest x identity owed careful s) :
    (writable : Op N Writer).Holds (terms x identity load owed careful) (fun r t => s = t ∧ match r with
      | .ok j' => j = j' ∧ j.poisoned = false
      | .error _ => j.poisoned = true) s := by
  refine get_bind journal rest ?_
  refine Holds.bind (Q := fun r t => s = t ∧ match r with
    | .ok _ => j.poisoned = false
    | .error _ => j.poisoned = true) (holds_require.2 ⟨rest, ?_, ?_⟩) (fun _ t rest' now => ?_)
    fun e t _ now => now
  · exact fun live => ⟨rfl, by simpa using live⟩
  · exact fun dead => ⟨rfl, by simpa using dead⟩
  · exact ⟨rest', now.1, rfl, now.2⟩

theorem orPoison_holds {op : Op N α} {Q : α → Machine N → Prop}
    (h : op.Holds (terms x identity load owed careful) (fun r t => match r with
      | .ok a => Q a t
      | .error _ => t.writing = none ∧ ∃ j', t.journal = some j' ∧
        (j'.pending = true → j.pending = true)) s) :
    (orPoison op).Holds (terms x identity load owed careful) (fun r t => match r with
      | .ok a => Q a t
      | .error _ => Failed j t) s := by
  refine Holds.attempt (h.mono fun r t rest now => ?_)
  cases r with
  | ok a => exact ⟨rest, now⟩
  | error e =>
      obtain ⟨quiet, j', journal, pending⟩ := now
      have poisoned : (poison : Op N Unit).Holds (terms x identity load owed careful)
          (fun r t => ∃ a, r = .ok a ∧ Failed j t) t := by
        refine get_bind journal rest ((set_holds _ rest).mono fun r u _ now => ?_)
        obtain ⟨a, rfl, rfl⟩ := now
        exact ⟨a, rfl, quiet, _, rfl, rfl, pending⟩
      exact poisoned.proceed fun _ u rest' now => ⟨rest', now⟩

/-- The machine and the writer after a record was appended. -/
def Machine.recorded (x : Externals N) (s : Machine N) (j : Writer) (r : Record N) : Machine N :=
  { s.appended x j.file r with journal := some { j with basePrepared := false } }

theorem appendRange_holds (lawful : x.Lawful) (rest : Rest x identity owed careful s) (journal : s.journal = some j)
    (quiet : s.writing = none) (loading : load → j.pending = true) (fit : j.poisoned = false → Fit identity s j)
    (fair : j.poisoned = false → Fair careful x r (s.log j.file)) :
    (appendRange r).Holds (terms x identity load owed careful) (fun res t => match res with
      | .ok _ => j.poisoned = false ∧ t = s.recorded x j r
      | .error _ => Failed j t) s := by
  refine Holds.bind (writable_holds journal rest) (fun j t _ now => ?_) fun e t _ now => ?_
  · obtain ⟨rfl, rfl, live⟩ := now
    have fit := fit live
    refine Holds.proceed (set_holds _ rest) fun _ t rest' now => ?_
    subst now
    have rests := rest'.written lawful quiet (rest.disk.known _ _ fit.records) fit.ended (fair live) 0
    refine (orPoison_holds (j := j) (Q := fun _ t => t = s.recorded x j r) ?_).mono
      fun res t _ now => ?_
    · refine reads_bind (c := .length j.file) trivial rest' (fun start _ => ?_) fun e _ => ?_
      · refine write_bind (s := { s with journal := some { j with basePrepared := false } }) lawful rfl
          quiet loading fit.ended fit.records (fair live) rest' ?_
        refine reads_bind (c := .length j.file) trivial rests.2 (fun stop _ => ?_) fun e _ => ?_
        · exact ⟨rests.2, rfl⟩
        · exact ⟨quiet, _, rfl, id⟩
      · exact ⟨quiet, _, rfl, id⟩
    · cases res with
      | ok a => exact ⟨live, now⟩
      | error e => exact now
  · obtain ⟨rfl, dead⟩ := now
    exact ⟨quiet, j, journal, dead, id⟩

theorem append_holds (lawful : x.Lawful) (rest : Rest x identity owed careful s) (journal : s.journal = some j)
    (quiet : s.writing = none) (loading : load → j.pending = true) (fit : j.poisoned = false → Fit identity s j)
    {r : Record N} (fair : j.poisoned = false → Fair careful x r (s.log j.file)) :
    (append r).Holds (terms x identity load owed careful) (fun res t => match res with
      | .ok _ => j.poisoned = false ∧ t = s.recorded x j r
      | .error _ => Failed j t) s := by
  refine Holds.bind (appendRange_holds lawful rest journal quiet loading fit fair)
    (fun a t rest' now => ⟨rest', now⟩) fun e t _ now => now

/-- The machine after the writer saved its manifest. -/
def Machine.saved (s : Machine N) (j : Writer) : Machine N :=
  s.setDir j.folder (some ⟨some j.manifest, some j.file⟩)

theorem Fit.dir (fit : Fit identity s j) : ∃ manifest, s.dirs j.folder = some ⟨manifest, some j.file⟩ := by
  have records := fit.records
  cases there : s.dirs j.folder with
  | none => simp [Machine.recordsAt, there] at records
  | some dir =>
      have file : dir.records = some j.file := by simpa [Machine.recordsAt, there] using records
      exact ⟨dir.manifest, by rw [← file]⟩

theorem Rest.saved (h : Rest x identity owed careful s) (fit : Fit identity s j)
    (owes : j.pending = false → ∀ turn ∈ owed, j.manifest.activeTurn = some turn ∨
      s.Settled x turn) : Rest x identity owed careful (s.saved j) := by
  obtain ⟨manifest, there⟩ := fit.dir
  have disk : Disk x identity (s.saved j) := by
    refine h.disk.setManifest ⟨manifest, some j.file⟩ there fun ne => ?_
    have published : j.pending = false := by
      cases pending : j.pending with
      | false => rfl
      | true => exact absurd (by simp [Writer.folder, pending]) ne
    exact ⟨fit.version_eq, fit.identity_eq, by simp [Writer.folder, published]⟩
  have records : (s.saved j).recordsAt s.selected = s.recordsAt s.selected := by
    by_cases here : s.selected = j.folder
    · simp [Machine.saved, here, Machine.recordsAt, there]
    · exact recordsAt_setDir_ne here _
  refine ⟨disk, fun turn mem => ?_, h.fair⟩
  by_cases here : s.selected = j.folder
  · have published : j.pending = false := by
      cases pending : j.pending with
      | false => rfl
      | true => exact absurd (by simp [here, Writer.folder, pending]) (selected_ne_pending (s := s))
    rcases owes published turn mem with active | settled
    · exact .inl ⟨j.manifest, by simp [Machine.saved, here], active⟩
    · exact .inr (Settled.mono settled rfl records fun _ _ mem => mem)
  · exact Owes.mono (h.owes turn mem) rfl (manifestAt_setDir_ne here _) records fun _ _ mem => mem

theorem writeManifest_holds (journal : s.journal = some j) (quiet : s.writing = none)
    (loading : load → j.pending = true) (fit : Fit identity s j)
    (owes : j.pending = false → ∀ turn ∈ owed, j.manifest.activeTurn = some turn ∨
      s.Settled x turn) (rest : Rest x identity owed careful s) :
    (writeManifest j.folder j.manifest).Holds (terms x identity load owed careful)
      (fun r t => match r with
        | .ok _ => t = s.saved j
        | .error _ => t.writing = none ∧ ∃ j', t.journal = some j' ∧
          (j'.pending = true → j.pending = true)) s := by
  obtain ⟨manifest, there⟩ := fit.dir
  refine reads_bind (c := .readManifest j.folder) trivial rest (fun previous does => ?_) fun e _ => ?_
  · rcases does with ⟨_, same⟩ | ⟨_, _, text, same⟩
    · simp only [Machine.manifestAt, there, Option.bind_some, Except.ok.injEq] at same
      subst same
      split
      · next same => exact ⟨rest, by rw [Machine.saved, ← same, setDir_same there]⟩
      · refine reads_bind (c := .save j.folder) trivial rest (fun _ _ => ?_) fun e _ => ?_
        · refine holds_sys.2 ⟨rest, fun s' answer t same does => ?_⟩
          obtain rfl : s = s' := same
          rcases does with does | ⟨_, rfl, text, rfl⟩
          · simp only [Machine.Does, there] at does
            obtain ⟨rfl, rfl⟩ := does
            exact ⟨Own.saved journal loading there, rest.saved fit owes, rfl⟩
          · exact ⟨Own.refl, rest, quiet, j, journal, id⟩
        · exact ⟨quiet, j, journal, id⟩
    · cases same
  · exact ⟨quiet, j, journal, id⟩

theorem persist_holds (rest : Rest x identity owed careful s) (journal : s.journal = some j)
    (quiet : s.writing = none) (loading : load → j.pending = true) (fit : j.poisoned = false → Fit identity s j)
    (owes : j.pending = false → j.poisoned = false → ∀ turn ∈ owed,
      j.manifest.activeTurn = some turn ∨ s.Settled x turn) :
    (persist : Op N Unit).Holds (terms x identity load owed careful) (fun r t => match r with
      | .ok _ => j.poisoned = false ∧ t = s.saved j
      | .error _ => Failed j t) s := by
  refine Holds.bind (writable_holds journal rest) (fun j t _ now => ?_) fun e t _ now => ?_
  · obtain ⟨rfl, rfl, live⟩ := now
    have fit := fit live
    have write := writeManifest_holds journal quiet loading fit
      (fun published => owes published live) rest
    refine (orPoison_holds (j := j) (Q := fun _ t => t = s.saved j) ?_).mono fun r t _ now => ?_
    · refine reads_bind (c := .sync) trivial rest (fun _ _ => ?_) fun e _ => ?_
      · unfold Writer.folder at write
        split
        · next pending =>
          rw [if_pos pending] at write
          exact write.mono fun r t _ now => by cases r <;> exact now
        · next published =>
          rw [if_neg published] at write
          refine Holds.bind (Q := fun r t => t = s ∧ match r with
            | .ok l => l = folderOf j.manifest.generation
            | .error _ => True) ?_ (fun l t _ now => ?_) fun e t _ now => ?_
          · refine Holds.bind (Q := fun _ t => t = s) (holds_require.2 ⟨rest, fun _ => rfl, fun _ => rfl⟩)
              (fun _ t rest' now => ⟨rest', now, rfl⟩) fun e t _ now => ⟨now, trivial⟩
          · obtain ⟨rfl, rfl⟩ := now
            exact write.mono fun r t _ now => by cases r <;> exact now
          · obtain ⟨rfl, _⟩ := now
            exact ⟨quiet, j, journal, id⟩
      · exact ⟨quiet, j, journal, id⟩
    · cases r with
      | ok a => exact ⟨live, now⟩
      | error e => exact now
  · obtain ⟨rfl, dead⟩ := now
    exact ⟨quiet, j, journal, dead, id⟩

theorem require_bind {b : Bool} {e : Fault} (rest : Rest x identity owed careful s)
    {f : Unit → Op N α} {post : Except Fault α → Machine N → Prop}
    (ok : b = true → (f ()).Holds (terms x identity load owed careful) post s)
    (error : b = false → post (.error e) s) :
    (require b e >>= f).Holds (terms x identity load owed careful) post s := by
  cases b with
  | true => exact ok rfl
  | false => exact ⟨rest, error rfl⟩

end Steps

/-! ### The operations of a writer -/

section Operations

variable {N : Type} {x : Externals N} {identity : Identity} {owed : List String}
  {careful : Prop} {s t : Machine N} {j : Writer}

theorem Rest.owing (h : Rest x identity owed careful s) (owed' : List String)
    (owes : ∀ turn ∈ owed', s.Owes x turn) : Rest x identity owed' careful s :=
  ⟨h.disk, owes, h.fair⟩

theorem Idle.of_failed (rest : Rest x identity owed careful t) (failed : Failed j t)
    (filling : j.pending = true → owed = []) : Idle x identity owed careful t := by
  obtain ⟨quiet, j', journal, poisoned, pending⟩ := failed
  refine ⟨rest, quiet, fun k same live => ?_, fun ⟨k, same, filled⟩ => ?_⟩
  · rw [journal] at same
    cases same
    rw [poisoned] at live
    cases live
  · rw [journal] at same
    cases same
    exact filling (pending filled)

theorem Idle.of_none (rest : Rest x identity owed careful t) (quiet : t.writing = none)
    (journal : t.journal = none) : Idle x identity owed careful t := by
  refine ⟨rest, quiet, fun k same => ?_, fun ⟨k, same, _⟩ => ?_⟩
  · rw [journal] at same
    cases same
  · rw [journal] at same
    cases same

theorem Idle.of_seated (rest : Rest x identity owed careful t) (quiet : t.writing = none)
    (journal : t.journal = some j) (seated : Seated identity t j)
    (filling : j.pending = true → owed = []) : Idle x identity owed careful t := by
  refine ⟨rest, quiet, fun k same _ => ?_, fun ⟨k, same, filled⟩ => ?_⟩
  · rw [journal] at same
    cases same
    exact seated
  · rw [journal] at same
    cases same
    exact filling filled

theorem Idle.pending (h : Idle x identity owed careful s) (journal : s.journal = some j) :
    j.pending = true → owed = [] := fun pending => h.filling ⟨j, journal, pending⟩

theorem Fit.recorded (fit : Fit identity s j) (r : Record N) :
    Fit identity (s.recorded x j r) { j with basePrepared := false } where
  version_eq := fit.version_eq
  identity_eq := fit.identity_eq
  ended := by
    have file : (s.recorded x j r).files j.file = s.files j.file ++ line x r := by
      simp [Machine.recorded, Machine.appended, Machine.push, Machine.setLog]
    rw [file]
    exact Ended.record _ _
  records := fit.records
  first := fit.first

theorem Seated.recorded (seated : Seated identity s j) (r : Record N) :
    Seated identity (s.recorded x j r) { j with basePrepared := false } where
  toFit := seated.toFit.recorded r
  prepared _ := nofun
  mirror := seated.mirror

theorem recorded_log (r : Record N) :
    (s.recorded x j r).log = Function.update s.log j.file (s.log j.file ++ [⟨r, none⟩]) := rfl

/-- What stands in the files stands there after an append. -/
theorem recorded_grows (r : Record N) (i : Nat) (r' : Record N) (mem : r' ∈ present x (s.log i)) :
    r' ∈ present x ((s.recorded x j r).log i) := by
  rw [recorded_log]
  by_cases here : i = j.file
  · subst here
    rw [Function.update_self, present_append]
    exact List.mem_append_left _ mem
  · rw [Function.update_of_ne here]
    exact mem

theorem recorded_stands (r : Record N) : r ∈ present x ((s.recorded x j r).log j.file) := by
  rw [recorded_log, Function.update_self, present_append]
  exact List.mem_append_right _ (by simp [present_ended])

theorem Fit.saved (fit : Fit identity s j) : Fit identity (s.saved j) j where
  version_eq := fit.version_eq
  identity_eq := fit.identity_eq
  ended := fit.ended
  records := by simp [Machine.saved]
  first := fit.first

theorem saved_manifest (pending : j.pending = true) : (s.saved j).manifestAt .pending = some j.manifest := by
  have folder : j.folder = .pending := by simp [Writer.folder, pending]
  simp [Machine.saved, folder]

/-- After it saved its manifest a writer is between two operations. -/
theorem Fit.seated (fit : Fit identity s j)
    (selected : j.pending = false → folderOf j.manifest.generation = s.selected) :
    Seated identity (s.saved j) j where
  toFit := fit.saved
  prepared pending _ := saved_manifest pending
  mirror published := by
    have folder : j.folder = s.selected := by
      rw [← selected published]
      simp [Writer.folder, published]
    exact ⟨selected published, j.manifest, by simp [Machine.saved, folder], rfl⟩

section

variable (lawful : x.Lawful) (idle : Idle x identity owed careful s) (journal : s.journal = some j)
include lawful idle journal

/-- An append by a writer between two operations. -/
theorem append_idle {r : Record N}
    (plain : ∀ opening turn incomplete, r ≠ .gap opening (some turn) incomplete) :
    (append r).Holds (terms x identity False owed careful)
      (fun _ t => Idle x identity owed careful t) s := by
  refine (append_holds lawful idle.rest journal idle.quiet False.elim
    (fun live => (idle.seated j journal live).toFit) fun _ => Fair.plain plain _).mono fun res t rest now => ?_
  cases res with
  | ok a =>
      obtain ⟨live, rfl⟩ := now
      exact Idle.of_seated rest idle.quiet rfl ((idle.seated j journal live).recorded r)
        fun pending => idle.pending journal pending
  | error e => exact Idle.of_failed rest now (idle.pending journal)

theorem note_holds (notification : N) :
    (note notification).Holds (terms x identity False owed careful)
      (fun _ t => Idle x identity owed careful t) s :=
  get_bind journal idle.rest (append_idle lawful idle journal nofun)

theorem accept_holds (turn text : String) (images files : List (String × String)) (token : Option String) :
    (accept turn text images files token).Holds (terms x identity False owed careful)
      (fun r t => match r with
        | .ok _ => Idle x identity (turn :: owed) careful t
        | .error _ => Idle x identity owed careful t) s := by
  refine get_bind journal idle.rest ?_
  refine require_bind idle.rest (fun published => ?_) fun _ => idle
  refine require_bind idle.rest (fun free => ?_) fun _ => idle
  refine require_bind idle.rest (fun _ => ?_) fun _ => idle
  refine require_bind idle.rest (fun _ => ?_) fun _ => idle
  have published : j.pending = false := by simpa using published
  have free : j.manifest.activeTurn = none := by simpa using free
  refine Holds.bind (appendRange_holds lawful idle.rest journal idle.quiet False.elim
    (fun live => (idle.seated j journal live).toFit) fun _ => Fair.plain (by exact nofun) _)
    (fun range t rest now => ?_) fun e t rest now => Idle.of_failed rest now (idle.pending journal)
  obtain ⟨live, rfl⟩ := now
  have seated := idle.seated j journal live
  refine get_bind rfl rest ?_
  refine Holds.proceed (set_holds _ rest) fun _ t rest now => ?_
  subst now
  -- Nothing was owed but what the record file answers for: the manifest named no turn.
  have settled : ∀ u ∈ owed, s.Settled x u := fun u mem => by
    rcases idle.rest.owes u mem with ⟨m, manifest, active⟩ | settled
    · obtain ⟨_, m', same, mirror⟩ := seated.mirror published
      rw [manifest] at same
      cases same
      rw [active, free] at mirror
      cases mirror
    · exact settled
  have recorded := seated.recorded (x := x) (.prompt turn text images files)
  have fit : Fit identity { s.recorded x j (.prompt turn text images files) with
      journal := some { j with
        basePrepared := false, manifest := { j.manifest with activeTurn := some turn } } }
      { j with basePrepared := false, manifest := { j.manifest with activeTurn := some turn } } :=
    ⟨recorded.version_eq, recorded.identity_eq, recorded.ended, recorded.records, recorded.first⟩
  refine Holds.bind (persist_holds rest rfl idle.quiet False.elim (fun _ => fit)
    fun _ _ u mem => .inr (Settled.mono (settled u mem) rfl rfl (recorded_grows _)))
    (fun _ t rest now => ?_) fun e t rest now => Idle.of_failed rest now fun pending => by
      simp [published] at pending
  obtain ⟨_, rfl⟩ := now
  have now := fit.seated fun _ => (seated.mirror published).1
  have idle' : Idle x identity (turn :: owed) careful _ :=
    Idle.of_seated (rest.owing (turn :: owed) fun u mem => by
      rcases List.mem_cons.1 mem with rfl | mem
      · obtain ⟨_, m, manifest, active⟩ := now.mirror published
        exact .inl ⟨m, manifest, active⟩
      · exact rest.owes u mem) idle.quiet rfl now fun pending => by simp [published] at pending
  cases token with
  | none => exact ⟨rest, idle'⟩
  | some token =>
      refine (append_holds lawful rest rfl idle.quiet False.elim (fun _ => now.toFit)
        fun _ => Fair.plain (by exact nofun) _).mono fun r t rest' done => ?_
      cases r with
      | ok a =>
          obtain ⟨_, rfl⟩ := done
          refine Idle.of_seated (rest'.owing (turn :: owed) fun u mem => ?_) idle.quiet rfl
            (now.recorded _) fun pending => by simp [published] at pending
          exact Owes.mono (idle'.rest.owes u mem) rfl rfl rfl (recorded_grows _)
      | error e =>
          exact Idle.of_failed rest' done fun pending => by simp [published] at pending

theorem finish_holds (turn : String) (outcome : Outcome) (detail : Option String) :
    (finish turn outcome detail).Holds (terms x identity False owed careful)
      (fun r t => match r with
        | .ok _ => Idle x identity (owed.filter (· ≠ turn)) careful t
        | .error _ => Idle x identity owed careful t) s := by
  refine get_bind journal idle.rest ?_
  refine require_bind idle.rest (fun named => ?_) fun _ => idle
  have named : j.manifest.activeTurn = some turn := by simpa using named
  refine Holds.bind (append_holds lawful idle.rest journal idle.quiet False.elim
    (fun live => (idle.seated j journal live).toFit) fun _ => Fair.plain (by exact nofun) _)
    (fun _ t rest now => ?_) fun e t rest now => Idle.of_failed rest now (idle.pending journal)
  obtain ⟨live, rfl⟩ := now
  have seated := idle.seated j journal live
  refine get_bind rfl rest ?_
  refine Holds.proceed (set_holds _ rest) fun _ t rest now => ?_
  subst now
  -- The only turn the manifest can have named is the one that has ended now.
  have settled : j.pending = false → ∀ u ∈ owed,
      (s.recorded x j (.turn turn outcome detail)).Settled x u := fun published u mem => by
    obtain ⟨chosen, m', same, mirror⟩ := seated.mirror published
    rcases idle.rest.owes u mem with ⟨m, manifest, active⟩ | settled
    · rw [manifest] at same
      cases same
      have is_ : turn = u := by
        rw [active, named] at mirror
        exact (Option.some.inj mirror).symm
      subst is_
      refine ⟨j.file, ?_, .inl ⟨outcome, detail, recorded_stands _⟩⟩
      have records := seated.records
      simp only [Writer.folder, published, Bool.false_eq_true, if_false, chosen] at records
      exact records
    · exact Settled.mono settled rfl rfl (recorded_grows _)
  have recorded := seated.recorded (x := x) (.turn turn outcome detail)
  have fit : Fit identity { s.recorded x j (.turn turn outcome detail) with
      journal := some { j with
        basePrepared := false, manifest := { j.manifest with activeTurn := none } } }
      { j with basePrepared := false, manifest := { j.manifest with activeTurn := none } } :=
    ⟨recorded.version_eq, recorded.identity_eq, recorded.ended, recorded.records, recorded.first⟩
  refine (persist_holds rest rfl idle.quiet False.elim (fun _ => fit)
    fun published _ u mem => .inr (settled published u mem)).mono fun r t rest now => ?_
  cases r with
  | ok a =>
      obtain ⟨_, rfl⟩ := now
      refine Idle.of_seated (rest.owing _ fun u mem => rest.owes u (List.mem_filter.1 mem).1)
        idle.quiet rfl (fit.seated fun published => (seated.mirror published).1) fun pending => ?_
      rw [idle.pending journal pending]
      rfl
  | error e => exact Idle.of_failed rest now fun pending => idle.pending journal pending

end

theorem prepareBase_holds (idle : Idle x identity owed careful s) (journal : s.journal = some j) :
    (prepareBase : Op N Unit).Holds (terms x identity False owed careful)
      (fun _ t => Idle x identity owed careful t) s := by
  refine get_bind journal idle.rest ?_
  refine require_bind idle.rest (fun pending => ?_) fun _ => idle
  refine Holds.bind (writable_holds journal idle.rest) (fun j t _ now => ?_) fun e t _ now => now.1 ▸ idle
  obtain ⟨rfl, rfl, live⟩ := now
  have seated := idle.seated j journal live
  refine Holds.attempt (Holds.mono (?_ : Holds _ _ (Told (fun _ t => t = s.saved j) fun _ t =>
    t.writing = none ∧ ∃ j', t.journal = some j' ∧ (j'.pending = true → j.pending = true))
    s) fun r t rest now => ?_)
  · refine reads_bind (c := .sync) trivial idle.rest (fun _ _ => ?_) fun e _ =>
      ⟨idle.quiet, j, journal, id⟩
    refine Holds.bind (persist_holds idle.rest journal idle.quiet False.elim (fun _ => seated.toFit)
      fun published => by simp [published] at pending) (fun _ t rest now => ?_) fun e t _ now => ?_
    · obtain ⟨_, rfl⟩ := now
      refine reads_bind (c := .sync) trivial rest (fun _ _ => ?_) fun e _ => ⟨idle.quiet, j, journal, id⟩
      refine (reads_holds (c := .sync) trivial rest).mono fun r t _ now => ?_
      obtain ⟨rfl, _⟩ := now
      cases r with
      | ok a => rfl
      | error e => exact ⟨idle.quiet, j, journal, id⟩
    · obtain ⟨quiet, j', journal, _, filled⟩ := now
      exact ⟨quiet, j', journal, filled⟩
  · cases r with
    | ok a =>
        subst now
        refine get_bind (s := s.saved j) journal rest ((set_holds _ rest).mono fun r t rest now => ?_)
        obtain ⟨a, rfl, rfl⟩ := now
        have saved := seated.toFit.saved
        refine Idle.of_seated rest idle.quiet rfl ⟨⟨saved.version_eq, saved.identity_eq, saved.ended,
          saved.records, saved.first⟩, fun _ _ => ?_, fun published =>
            absurd (pending.symm.trans published) (by simp)⟩ fun _ => idle.pending journal pending
        exact saved_manifest pending
    | error e =>
        obtain ⟨quiet, j', journal', filled⟩ := now
        refine get_bind journal' rest (Holds.proceed (set_holds _ rest) fun _ t rest now => ?_)
        subst now
        exact ⟨rest, Idle.of_failed (j := j) rest ⟨quiet, _, rfl, rfl, filled⟩ fun _ =>
          idle.pending journal pending⟩

theorem generationDirectory_holds (rest : Rest x identity owed careful s) {load : Prop}
    (generation : Option String) :
    (generationDirectory generation : Op N Folder).Holds (terms x identity load owed careful)
      (fun r t => s = t ∧ ∀ l, r = .ok l → folderOf generation = l ∧
        generation.all validateGeneration = true) s := by
  refine require_bind rest (fun valid => ?_) fun _ => ⟨rfl, nofun⟩
  refine ⟨rest, rfl, fun l same => ?_⟩
  cases same
  exact ⟨rfl, valid⟩

/-- A pointer to a base that is there. -/
theorem Rest.point (rest : Rest x identity [] careful s) {g : String}
    (valid : validateGeneration g = true) (there : (s.dirs (.generation g)).isSome) :
    Rest x identity [] careful { s with active := some ⟨version, g⟩ } where
  disk := { rest.disk with
    based := fun l dir ne there => by
      obtain ⟨manifest, records⟩ := rest.disk.based l dir ne there
      exact ⟨manifest, records⟩
    selected := fun a named => by
      cases named
      exact ⟨rfl, valid, there⟩ }
  owes _ mem := absurd mem List.not_mem_nil
  fair := rest.fair

theorem writeActive_holds (rest : Rest x identity [] careful s) {g : String}
    (valid : validateGeneration g = true) (there : (s.dirs (.generation g)).isSome) :
    (writeActive ⟨version, g⟩ : Op N Unit).Holds (terms x identity False [] careful)
      (fun r t => match r with
        | .ok _ => t = { s with active := some ⟨version, g⟩ }
        | .error _ => t = s) s := by
  refine reads_bind (c := .readActive) trivial rest (fun previous does => ?_) fun e _ => rfl
  rcases does with ⟨_, same⟩ | ⟨_, _, text, same⟩
  · obtain rfl : previous = s.active := Except.ok.inj same
    split
    · next same => exact ⟨rest, by rw [← same]⟩
    · refine reads_bind (c := .save .current) trivial rest (fun _ _ => ?_) fun e _ => rfl
      refine holds_sys.2 ⟨rest, fun s' answer t same does => ?_⟩
      obtain rfl : s = s' := same
      rcases does with ⟨rfl, rfl⟩ | ⟨_, rfl, text, rfl⟩
      · exact ⟨Own.aside (fun _ _ => rfl) rfl rfl, rest.point valid there, rfl⟩
      · exact ⟨Own.refl, rest, rfl⟩
  · cases same

/-- The machine and the writer after the pending folder was renamed. -/
def Machine.renamed (s : Machine N) (j : Writer) (l : Folder) : Machine N :=
  { (s.setDir .pending none).setDir l (some ⟨some j.manifest, some j.file⟩) with
    published := Function.update s.published l (whole (s.log j.file))
    journal := some { j with pending := false, basePrepared := false } }

theorem rename_bind (rest : Rest x identity [] careful s) (journal : s.journal = some j)
    (fit : Fit identity s j) (pending : s.dirs .pending = some ⟨some j.manifest, some j.file⟩)
    (free : s.dirs (folderOf j.manifest.generation) = none) {α : Type} {f : Unit → Op N α}
    {post : Except Fault α → Machine N → Prop}
    (next : ∀ t, Rest x identity [] careful t → t = s.renamed j (folderOf j.manifest.generation) →
      (f ()).Holds (terms x identity False [] careful) post t) (error : ∀ e, post (.error e) s) :
    (sys (.rename (folderOf j.manifest.generation)) >>= fun _ =>
      sys (.set { j with pending := false, basePrepared := false }) >>= f).Holds
      (terms x identity False [] careful) post s := by
  have disk := rest.disk.publish pending free ⟨fit.version_eq, fit.identity_eq, rfl⟩
    (folderOf_ne_pending _)
  refine Holds.bind (Q := fun r t => match r with
    | .ok _ => t = { (s.setDir .pending none).setDir (folderOf j.manifest.generation)
          (some ⟨some j.manifest, some j.file⟩) with
        published := Function.update s.published (folderOf j.manifest.generation)
          (whole (s.log j.file)) }
    | .error _ => t = s) (holds_sys.2 ⟨rest, fun s' answer t same does => ?_⟩)
    (fun _ t rest' now => ?_) fun e t _ now => now ▸ error e
  · obtain rfl : s = s' := same
    rcases does with does | ⟨_, rfl, text, rfl⟩
    · simp only [Machine.Does, pending, free] at does
      obtain ⟨rfl, rfl⟩ := does
      exact ⟨Own.published journal free, ⟨disk, fun _ mem => absurd mem List.not_mem_nil, rest.fair⟩, rfl⟩
    · exact ⟨Own.refl, rest, rfl⟩
  · subst now
    refine Holds.proceed (set_holds _ rest') fun _ t rest now => ?_
    exact next t rest (by rw [now]; rfl)

theorem Fit.renamed (fit : Fit identity s j) :
    Fit identity (s.renamed j (folderOf j.manifest.generation))
      { j with pending := false, basePrepared := false } where
  version_eq := fit.version_eq
  identity_eq := fit.identity_eq
  ended := fit.ended
  records := by
    simp [Machine.renamed, Machine.recordsAt, Machine.setDir, Writer.folder]
  first := nofun

theorem renamed_manifest : (s.renamed j (folderOf j.manifest.generation)).manifestAt
    (folderOf j.manifest.generation) = some j.manifest := by
  simp [Machine.renamed, Machine.manifestAt, Machine.setDir]

theorem pointTo_holds (rest : Rest x identity [] careful s) (journal : s.journal = some j)
    (quiet : s.writing = none) (published : j.pending = false) (fit : Fit identity s j)
    (manifest : s.manifestAt (folderOf j.manifest.generation) = some j.manifest)
    (first : j.manifest.generation = none → s.active = none)
    (valid : j.manifest.generation.all validateGeneration = true) :
    (pointTo j.manifest.generation : Op N Unit).Holds (terms x identity False [] careful)
      (fun r t => match r with
        | .ok _ => Idle x identity [] careful t
        | .error _ => t.writing = none ∧ ∃ j', t.journal = some j') s := by
  cases generation : j.manifest.generation with
  | none =>
      refine (reads_holds (c := .sync) trivial rest).mono fun r t _ now => ?_
      obtain ⟨rfl, _⟩ := now
      cases r with
      | error e => exact ⟨quiet, j, journal⟩
      | ok a =>
          have selected : folderOf j.manifest.generation = t.selected := by
            simp [Machine.selected, first generation, generation]
          exact Idle.of_seated rest quiet journal
            ⟨fit, fun pending => absurd (published.symm.trans pending) nofun,
              fun _ => ⟨selected, j.manifest, selected ▸ manifest, rfl⟩⟩ fun _ => rfl
  | some g =>
      rw [generation] at valid manifest
      have there : (s.dirs (.generation g)).isSome := by
        cases there : s.dirs (.generation g) with
        | none => simp [folderOf, Machine.manifestAt, there] at manifest
        | some dir => rfl
      refine Holds.bind (writeActive_holds rest valid there) (fun _ t rest now => ?_) fun e t _ now =>
        ⟨now ▸ quiet, j, now ▸ journal⟩
      subst now
      refine reads_bind (c := .sync) trivial rest (fun _ _ => ?_) fun e _ => ⟨quiet, j, journal⟩
      refine (reads_holds (c := .sync) trivial rest).mono fun r t _ now => ?_
      obtain ⟨rfl, _⟩ := now
      cases r with
      | error e => exact ⟨quiet, j, journal⟩
      | ok a =>
          exact Idle.of_seated rest quiet journal
            ⟨⟨fit.version_eq, fit.identity_eq, fit.ended, fit.records, fun pending =>
                absurd (published.symm.trans pending) nofun⟩,
              fun pending => absurd (published.symm.trans pending) nofun,
              fun _ => ⟨by rw [generation]; rfl, j.manifest, manifest, rfl⟩⟩ fun _ => rfl

theorem publishBase_holds (idle : Idle x identity owed careful s) (journal : s.journal = some j) :
    (publishBase : Op N Unit).Holds (terms x identity False owed careful)
      (fun _ t => Idle x identity owed careful t) s := by
  refine get_bind journal idle.rest ?_
  refine require_bind idle.rest (fun pending => ?_) fun _ => idle
  refine Holds.bind (writable_holds journal idle.rest) (fun j t _ now => ?_) fun e t _ now => now.1 ▸ idle
  obtain ⟨rfl, rfl, live⟩ := now
  refine require_bind idle.rest (fun prepared => ?_) fun _ => idle
  have seated := idle.seated j journal live
  obtain rfl : owed = [] := idle.pending journal pending
  refine Holds.bind (generationDirectory_holds idle.rest j.manifest.generation) (fun l t _ now => ?_)
    fun e t _ now => now.1 ▸ idle
  obtain ⟨rfl, named⟩ := now
  obtain ⟨rfl, valid⟩ := named l rfl
  have quiet := idle.quiet
  have folder : s.dirs .pending = some ⟨some j.manifest, some j.file⟩ := by
    obtain ⟨manifest, there⟩ := seated.toFit.dir
    have saved := seated.prepared pending prepared
    simp only [Writer.folder, pending, if_true] at there
    simp only [Machine.manifestAt, there, Option.bind_some] at saved
    rw [there, saved]
  refine (orPoison_holds (j := j) (Q := fun _ t => Idle x identity [] careful t) ?_).mono
    fun r t rest now => ?_
  · refine reads_bind (c := .present _) trivial idle.rest (fun there does => ?_) fun e _ =>
      ⟨quiet, j, journal, id⟩
    refine require_bind idle.rest (fun absent => ?_) fun _ => ⟨quiet, j, journal, id⟩
    have free : s.dirs (folderOf j.manifest.generation) = none := by
      rcases does with ⟨_, same⟩ | ⟨_, _, text, same⟩
      · cases same
        simpa using absent
      · cases same
    have tail : (sys (.rename (folderOf j.manifest.generation)) >>= fun _ =>
        sys (.set { j with pending := false, basePrepared := false }) >>= fun _ =>
        sys .sync >>= fun _ => pointTo j.manifest.generation).Holds (terms x identity False [] careful)
        (fun r t => match r with
          | .ok _ => Idle x identity [] careful t
          | .error _ => t.writing = none ∧ ∃ j', t.journal = some j' ∧
              (j'.pending = true → j.pending = true)) s := by
      refine rename_bind idle.rest journal seated.toFit folder free (fun t rest now => ?_) fun e =>
        ⟨quiet, j, journal, id⟩
      have journal' : t.journal = some { j with pending := false, basePrepared := false } := by rw [now]; rfl
      have quiet' : t.writing = none := by rw [now]; exact quiet
      refine reads_bind (c := .sync) trivial rest (fun _ _ => ?_) fun e _ =>
        ⟨quiet', _, journal', fun _ => pending⟩
      refine (pointTo_holds rest journal' quiet' rfl (now ▸ seated.toFit.renamed)
        (now ▸ renamed_manifest) (fun first => ?_) valid).mono fun r t _ done => ?_
      · rw [now]
        exact seated.first pending first
      · cases r with
        | ok a => exact done
        | error e =>
            obtain ⟨quiet, j', journal⟩ := done
            exact ⟨quiet, j', journal, fun _ => pending⟩
    split
    · refine reads_bind (c := .createGenerations) trivial idle.rest (fun _ _ => ?_) fun e _ =>
        ⟨quiet, j, journal, id⟩
      exact tail.mono fun r t _ now => by cases r <;> exact now
    · exact tail.mono fun r t _ now => by cases r <;> exact now
  · cases r with
    | ok a => exact now
    | error e => exact Idle.of_failed rest now fun _ => rfl

theorem abortBase_holds (idle : Idle x identity owed careful s) (journal : s.journal = some j) :
    (abortBase : Op N Unit).Holds (terms x identity False owed careful)
      (fun _ t => Idle x identity owed careful t) s := by
  refine get_bind journal idle.rest ?_
  split
  · refine Holds.bind (removeDirAll_holds idle.rest) (fun _ t rest now => ?_) fun e t _ now =>
      now.1 ▸ idle
    subst now
    refine (set_holds _ rest).mono fun r t rest now => ?_
    obtain ⟨a, rfl, rfl⟩ := now
    exact Idle.of_failed (j := { j with pending := false }) rest ⟨idle.quiet, _, rfl, rfl, id⟩ nofun
  · exact ⟨idle.rest, idle⟩

/-- Whatever becomes of the pending folder, the memory goes. -/
theorem dropJournal_holds {load : Prop} (rest : Rest x identity owed careful s)
    (journal : s.journal = some j) (quiet : s.writing = none) :
    (dropJournal : Op N Unit).Holds (terms x identity load owed careful)
      (fun r t => ∃ a, r = .ok a ∧ t.journal = none ∧ t.writing = none) s := by
  refine get_bind journal rest ?_
  split
  · refine Holds.attempt ((removeDirAll_holds rest).mono fun r t rest now => ?_)
    refine (forget_holds rest).mono fun r' u _ done => ?_
    obtain ⟨a, rfl, rfl⟩ := done
    refine ⟨a, rfl, rfl, ?_⟩
    cases r with
    | ok b =>
        subst now
        exact quiet
    | error e =>
        obtain ⟨rfl, _⟩ := now
        exact quiet
  · refine (forget_holds rest).mono fun r t _ done => ?_
    obtain ⟨a, rfl, rfl⟩ := done
    exact ⟨a, rfl, rfl, quiet⟩

end Operations

/-! ### Opening -/

section Opening

variable {N : Type} {x : Externals N} {identity : Identity} {load : Prop} {owed : List String}
  {careful : Prop} {s t : Machine N} {j : Writer} {α : Type}

/-- What became of a turn is written where a reader of the journal finds it: in the file that the writer
fills, or in that of the selected base. -/
def Machine.Recorded (x : Externals N) (s : Machine N) (turn : String) : Prop :=
  (∃ j opening incomplete, s.journal = some j ∧
    Record.gap opening (some turn) incomplete ∈ whole (s.log j.file)) ∨ s.Settled x turn

/-- What an opening leaves. -/
def Opened (x : Externals N) (identity : Identity) (owed : List String) (careful : Prop) :
    Except Fault Unit → Machine N → Prop
  | .ok _, t => Idle x identity [] careful t ∧ ∀ turn ∈ owed, t.Recorded x turn
  | .error _, t => t.journal = none ∧ t.writing = none

theorem activeGeneration_holds (rest : Rest x identity owed careful s) :
    (activeGeneration : Op N (Option String)).Holds (terms x identity load owed careful)
      (fun r t => s = t ∧ ∀ g, r = .ok g → s.active.map ActiveGeneration.generation = g) s := by
  refine reads_bind (c := .readActive) trivial rest (fun active does => ?_) fun e _ => ⟨rfl, nofun⟩
  rcases does with ⟨_, same⟩ | ⟨_, _, text, same⟩
  · obtain rfl : active = s.active := Except.ok.inj same
    cases active : s.active with
    | none =>
        refine ⟨rest, rfl, fun g same => ?_⟩
        cases same
        rfl
    | some a =>
        refine require_bind rest (fun _ => ?_) fun _ => ⟨rfl, nofun⟩
        refine require_bind rest (fun _ => ?_) fun _ => ⟨rfl, nofun⟩
        refine ⟨rest, rfl, fun g same => ?_⟩
        cases same
        rfl
  · cases same

theorem publishedManifest_holds (rest : Rest x identity owed careful s) (generation : Option String) :
    (publishedManifest identity generation : Op N (Option Manifest)).Holds
      (terms x identity load owed careful)
      (fun r t => s = t ∧ ∀ p, r = .ok p → match p with
        | some m => s.manifestAt (folderOf generation) = some m ∧ m.version = version ∧
            m.identity = identity ∧ m.generation = generation
        | none => generation = none ∧ s.dirs .current = none) s := by
  refine Holds.bind (generationDirectory_holds rest generation) (fun l t _ now => ?_)
    fun e t _ now => ⟨now.1, nofun⟩
  obtain ⟨rfl, named⟩ := now
  obtain ⟨rfl, _⟩ := named l rfl
  refine reads_bind (c := .readManifest _) trivial rest (fun manifest does => ?_) fun e _ => ⟨rfl, nofun⟩
  rcases does with ⟨_, same⟩ | ⟨_, _, text, same⟩
  · have same := Except.ok.inj same
    cases manifest with
    | some m =>
        refine require_bind rest (fun good => ?_) fun _ => ⟨rfl, nofun⟩
        refine ⟨rest, rfl, fun p is_ => ?_⟩
        cases is_
        simp only [Bool.and_eq_true, beq_iff_eq] at good
        exact ⟨same.symm, good.1.1, good.1.2, good.2⟩
    | none =>
        refine reads_bind (c := .present _) trivial rest (fun there does => ?_) fun e _ => ⟨rfl, nofun⟩
        rcases does with ⟨_, same⟩ | ⟨_, _, text, same⟩
        · cases same
          refine require_bind rest (fun good => ?_) fun _ => ⟨rfl, nofun⟩
          refine ⟨rest, rfl, fun p is_ => ?_⟩
          cases is_
          simp only [Bool.and_eq_true, Bool.not_eq_true', Option.isNone_iff_eq_none,
            Option.isSome_eq_false_iff] at good
          obtain ⟨absent, rfl⟩ := good
          exact ⟨rfl, absent⟩
        · cases same
  · cases same

/-- The machine with a pending folder and its record file. -/
def Machine.created (s : Machine N) : Machine N :=
  { s.setDir .pending (some ⟨none, some s.inodes⟩) with inodes := s.inodes + 1 }

theorem create_bind (rest : Rest x identity owed careful s) (free : s.dirs .pending = none)
    (journal : s.journal = none) (quiet : s.writing = none) {f : Nat → Op N α}
    {post : Except Fault α → Machine N → Prop} (next : ∀ t, Rest x identity owed careful t → t = s.created →
      (f s.inodes).Holds (terms x identity load owed careful) post t)
    (error : ∀ e t, t.journal = none → t.writing = none → post (.error e) t) :
    (sys (.createDir .pending) >>= fun _ => sys (.createRecords .pending) >>= f).Holds
      (terms x identity load owed careful) post s := by
  refine Holds.bind (Q := Told (fun _ t => t = s.setDir .pending (some ⟨none, none⟩)) fun _ t => t = s) (holds_sys.2 ⟨rest, fun s' answer t same does => ?_⟩)
    (fun _ t rest' now => ?_) fun e t _ now => error e t (now ▸ journal) (now ▸ quiet)
  · obtain rfl : s = s' := same
    rcases does with does | ⟨_, rfl, text, rfl⟩
    · simp only [Machine.Does, free] at does
      obtain ⟨rfl, rfl⟩ := does
      exact ⟨Own.setPending _, rest.shrinkPending (by simp), rfl⟩
    · exact ⟨Own.refl, rest, rfl⟩
  · subst now
    refine Holds.bind (Q := Told (fun i t => i = s.inodes ∧ t = s.created)
      fun _ t => t = s.setDir .pending (some ⟨none, none⟩))
      (holds_sys.2 ⟨rest', fun s' answer t same does => ?_⟩)
      (fun i t rest' now => ?_) fun e t _ now => error e t (now ▸ journal) (now ▸ quiet)
    · obtain rfl : s.setDir .pending (some ⟨none, none⟩) = s' := same
      rcases does with does | ⟨_, rfl, text, rfl⟩
      · simp only [Machine.Does, setDir_self] at does
        obtain ⟨rfl, rfl⟩ := does
        have made : { (s.setDir .pending (some ⟨none, none⟩)).setDir .pending
            (some ⟨none, some s.inodes⟩) with inodes := s.inodes + 1 } = s.created := by
          simp [Machine.created, Machine.setDir]
        refine ⟨Own.aside (fun l ne => ?_) rfl rfl, ?_, rfl, made⟩
        · rw [dirs_setDir_ne ne]
        · refine Rest.aside rest (t := { (s.setDir .pending (some ⟨none, none⟩)).setDir .pending
            (some ⟨none, some s.inodes⟩) with inodes := s.inodes + 1 }) ?_ rfl (fun l ne => ?_) rfl
          · rw [made]
            exact rest.disk.newRecords ⟨none, none⟩
          · exact (dirs_setDir_ne ne _).trans (dirs_setDir_ne ne _)
      · exact ⟨Own.refl, rest', rfl⟩
    · obtain ⟨rfl, now⟩ := now
      exact next t rest' now

/-- The writer of a base that is not published, right after its record file was created. -/
theorem Fit.created (disk : Disk x identity s) {j : Writer} (file : j.file = s.inodes)
    (pending : j.pending = true) (version_eq : j.manifest.version = version)
    (identity_eq : j.manifest.identity = identity) (first : j.manifest.generation = none → s.active = none) :
    Fit identity { s.created with journal := some j } j where
  version_eq := version_eq
  identity_eq := identity_eq
  ended := .inl (by rw [file]; exact (disk.fresh _ (Nat.le_refl _)).1)
  records := by
    simp [Writer.folder, pending, Machine.created, Machine.recordsAt, Machine.setDir, file]
  first _ := first

theorem orDrop_holds {op : Op N Unit} {Q : Machine N → Prop}
    (h : op.Holds (terms x identity load owed careful) (fun r t => match r with
      | .ok _ => Q t
      | .error _ => t.writing = none ∧ ∃ j', t.journal = some j') s) :
    (orDrop op).Holds (terms x identity load owed careful) (fun r t => match r with
      | .ok _ => Q t
      | .error _ => t.journal = none ∧ t.writing = none) s := by
  refine Holds.attempt (h.mono fun r t rest now => ?_)
  cases r with
  | ok a => exact ⟨rest, now⟩
  | error e =>
      obtain ⟨quiet, j', journal⟩ := now
      exact (dropJournal_holds rest journal quiet).proceed fun _ u rest' now => ⟨rest', now⟩

theorem newBase_holds (rest : Rest x identity owed careful s) (free : s.dirs .pending = none)
    (journal : s.journal = none) (quiet : s.writing = none) (first : s.active = none)
    (absent : s.dirs .current = none) (opening : Opening) :
    (newBase identity opening : Op N Unit).Holds (terms x identity load owed careful)
      (Opened x identity owed careful) s := by
  refine create_bind rest free journal quiet (fun t rest' now => ?_) fun e t gone quiet => ⟨gone, quiet⟩
  refine (set_holds _ rest').mono fun r u rest'' done => ?_
  obtain ⟨a, rfl, rfl⟩ := done
  subst now
  have fit : Fit identity { s.created with
      journal := some ⟨s.inodes, emptyManifest identity opening, true, false, false⟩ }
      ⟨s.inodes, emptyManifest identity opening, true, false, false⟩ :=
    Fit.created rest.disk rfl rfl rfl rfl fun _ => first
  refine ⟨Idle.of_seated (rest''.owing _ nofun) quiet rfl ⟨fit, fun _ => nofun, nofun⟩ fun _ => rfl,
    fun turn mem => ?_⟩
  -- Nothing is owed where nothing is published.
  have current : s.selected = .current := by simp [Machine.selected, first, folderOf]
  rcases rest.owes turn mem with ⟨m, manifest, _⟩ | ⟨i, records, _⟩
  · simp [Machine.manifestAt, current, absent] at manifest
  · simp [Machine.recordsAt, current, absent] at records

theorem loadBase_holds (lawful : x.Lawful) (rest : Rest x identity owed careful s)
    (free : s.dirs .pending = none) (journal : s.journal = none) (quiet : s.writing = none)
    {manifest : Manifest} (selected : s.manifestAt s.selected = some manifest) (fresh : String) :
    (loadBase identity manifest fresh : Op N Unit).Holds (terms x identity load owed careful)
      (Opened x identity owed careful) s := by
  refine create_bind rest free journal quiet (fun t rest' now => ?_) fun e t gone quiet => ⟨gone, quiet⟩
  refine Holds.proceed (set_holds _ rest') fun _ u rest'' done => ?_
  subst done
  subst now
  have fit : Fit identity { s.created with
      journal := some ⟨s.inodes, ⟨version, identity, .load, min (manifest.gaps + 1) u64Max, none,
        some fresh⟩, true, false, false⟩ }
      ⟨s.inodes, ⟨version, identity, .load, min (manifest.gaps + 1) u64Max, none, some fresh⟩, true,
        false, false⟩ :=
    Fit.created rest.disk rfl rfl rfl rfl nofun
  have empty : s.log s.inodes = [] := (rest.disk.fresh _ (Nat.le_refl _)).2
  have unfinished : ∀ turn, ¬ Finished turn (present x (s.log s.inodes)) := by
    rw [empty]
    rintro turn ⟨before, after, _, _, same, _⟩
    simp [present] at same
  have gap := @append_holds N x identity load owed careful _ _ lawful rest'' rfl quiet (fun _ => rfl) (fun _ => fit)
    (.gap .load manifest.activeTurn false) fun _ _ _ turn _ _ => unfinished turn
  refine (orDrop_holds (Q := fun t => Opened x identity owed careful (.ok ()) t)
    (gap.mono fun r t rest now => ?_)).mono fun r t _ now => ?_
  · cases r with
    | ok a =>
        obtain ⟨_, rfl⟩ := now
        refine ⟨Idle.of_seated (rest.owing _ nofun) quiet rfl
          ⟨fit.recorded _, fun _ => nofun, nofun⟩ fun _ => rfl, fun turn mem => ?_⟩
        rcases rest''.owes turn mem with ⟨m, named, active⟩ | settled
        · left
          have same : s.manifestAt s.selected = some m := by
            rw [← named]
            exact (manifestAt_setDir_ne selected_ne_pending _).symm
          rw [selected] at same
          cases same
          refine ⟨_, .load, false, rfl, ?_⟩
          rw [recorded_log, Function.update_self, whole_append, active]
          exact List.mem_append_right _ (by simp [whole])
        · exact .inr (Settled.mono settled rfl rfl (recorded_grows _))
    | error e =>
        obtain ⟨quiet, j', journal, _⟩ := now
        exact ⟨quiet, j', journal⟩
  · cases r with
    | ok | error => exact now

/-- The last line of the file is ended, where it was cut short. -/
theorem finishPartialRecord_holds (rest : Rest x identity owed careful s) (journal : s.journal = some j)
    (quiet : s.writing = none) (records : s.recordsAt j.folder = some j.file) (loading : load → j.pending = true) :
    (finishPartialRecord j.file : Op N Bool).Holds (terms x identity load owed careful)
      (fun r t => match r with
        | .ok _ => (t = s ∨ t = s.push j.file [newline]) ∧ Ended (t.files j.file)
        | .error _ => t = s) s := by
  refine reads_bind (c := .length j.file) trivial rest (fun length does => ?_) fun e _ => rfl
  rcases does with ⟨_, same⟩ | ⟨_, _, text, same⟩
  · obtain rfl : length = (s.files j.file).length := Except.ok.inj same
    split
    · next none_ => exact ⟨rest, .inl rfl, .inl (List.length_eq_zero_iff.1 none_)⟩
    · next some_ =>
      refine reads_bind (c := .last j.file) trivial rest (fun last does => ?_) fun e _ => rfl
      rcases does with ⟨_, same⟩ | ⟨_, _, text, same⟩
      · obtain rfl : last = (s.files j.file).getLast? := Except.ok.inj same
        split
        · next ended =>
          obtain ⟨before, same⟩ := List.getLast?_eq_some_iff.1 ended
          exact ⟨rest, .inl rfl, .inr ⟨before, same⟩⟩
        · next open_ =>
          have filled : s.files j.file ≠ [] := fun none_ => some_ (by rw [none_]; rfl)
          have last := List.getLast?_eq_some_getLast filled
          have ne : (s.files j.file).getLast filled ≠ newline := fun same =>
            open_ (last.trans (congrArg some same))
          have disk : Disk x identity (s.push j.file [newline]) := by
            have closed := rest.disk.relogged j.file (s.files j.file ++ [newline]) (s.log j.file)
              s.writing (rest.disk.known _ _ records)
              ((lines_close last ne).trans (rest.disk.shown _)) List.prefix_rfl
              (rest.disk.cuts _) (.inl quiet)
            rw [Function.update_eq_self] at closed
            exact closed
          refine Holds.proceed (Q := fun _ t => t = s.push j.file [newline])
            (holds_sys.2 ⟨rest, fun s' answer t same does => ?_⟩) fun _ t rest' now => ?_
          · obtain rfl : s = s' := same
            rcases does with ⟨rfl, rfl⟩ | ⟨fails, _⟩
            · exact ⟨Own.grown rest.disk journal records loading _ rfl rfl,
                rest.aside disk rfl (fun _ _ => rfl) rfl, (), rfl, rfl⟩
            · exact fails.elim
          · subst now
            refine ⟨rest', .inr rfl, .inr ⟨s.files j.file, ?_⟩⟩
            simp [Machine.push]
      · cases same
  · cases same

theorem continueBase_holds (lawful : x.Lawful) (rest : Rest x identity owed careful s)
    (journal : s.journal = some j) (quiet : s.writing = none) (loading : load → j.pending = true)
    (published : j.pending = false)
    (version_eq : j.manifest.version = version) (identity_eq : j.manifest.identity = identity)
    (records : s.recordsAt j.folder = some j.file)
    (selected : folderOf j.manifest.generation = s.selected)
    (manifest : s.manifestAt s.selected = some j.manifest)
    (ready : careful → ¬ Between x s) (opening : Opening) :
    (continueBase opening j.file : Op N Unit).Holds (terms x identity load owed careful)
      (fun r t => match r with
        | .ok _ => Opened x identity owed careful (.ok ()) t
        | .error _ => t.writing = none ∧ ∃ j', t.journal = some j') s := by
  refine Holds.bind (finishPartialRecord_holds rest journal quiet records loading)
    (fun incomplete t rest now => ?_) fun e t _ now => ⟨now ▸ quiet, j, now ▸ journal⟩
  obtain ⟨which, ended⟩ := now
  have journal : t.journal = some j := by rcases which with rfl | rfl <;> exact journal
  have quiet : t.writing = none := by rcases which with rfl | rfl <;> exact quiet
  have dirs : t.dirs = s.dirs := by rcases which with rfl | rfl <;> rfl
  have active : t.active = s.active := by rcases which with rfl | rfl <;> rfl
  have log : t.log = s.log := by rcases which with rfl | rfl <;> rfl
  have same : t.selected = s.selected := by simp only [Machine.selected, active]
  have recordsAt : ∀ l, t.recordsAt l = s.recordsAt l := fun l => by simp only [Machine.recordsAt, dirs]
  have manifestAt : ∀ l, t.manifestAt l = s.manifestAt l := fun l => by
    simp only [Machine.manifestAt, dirs]
  have folder : j.folder = t.selected := by simp [Writer.folder, published, selected, same]
  refine get_bind journal rest ?_
  refine Holds.proceed (set_holds _ rest) fun _ u rest now => ?_
  subst now
  have fit : Fit identity { t with
      journal := some { j with manifest := { j.manifest with activeTurn := none } } }
      { j with manifest := { j.manifest with activeTurn := none } } :=
    ⟨version_eq, identity_eq, ended, (recordsAt _).trans records, fun pending =>
      absurd (published.symm.trans pending) nofun⟩
  -- The turn that the manifest names has not ended, or the state would be between.
  have fair : Fair careful x (.gap opening j.manifest.activeTurn incomplete) (t.log j.file) := by
    intro now o turn c gap finished
    have active : j.manifest.activeTurn = some turn := by injection gap
    rw [log] at finished
    exact ready now ⟨s.selected, j.manifest, j.file, turn, selected_ne_pending, manifest,
      by rw [← same, ← folder]; exact records, active, finished⟩
  refine Holds.bind (append_holds lawful rest rfl quiet loading (fun _ => fit) fun _ => fair)
    (fun _ u rest now => ?_) fun e u _ now => ?_
  · obtain ⟨_, rfl⟩ := now
    have recorded := fit.recorded (x := x) (.gap opening j.manifest.activeTurn incomplete)
    refine get_bind rfl rest ?_
    refine Holds.proceed (set_holds _ rest) fun _ u rest' now => ?_
    subst now
    have settled : ∀ turn ∈ owed, Machine.Settled x (Machine.recorded x
        { t with journal := some { j with manifest := { j.manifest with activeTurn := none } } }
        { j with manifest := { j.manifest with activeTurn := none } }
        (.gap opening j.manifest.activeTurn incomplete)) turn := fun turn mem => by
      rcases rest.owes turn mem with ⟨m, named, active⟩ | settled
      · have is_ : s.manifestAt s.selected = some m := by
          rw [← named, ← manifestAt, ← same]
          rfl
        rw [manifest] at is_
        cases is_
        refine ⟨j.file, ?_, .inr ⟨opening, incomplete, ?_⟩⟩
        · have at_ := (recordsAt _).trans records
          rw [folder] at at_
          exact at_
        · rw [← active]
          exact recorded_stands _
      · exact settled
    have seat : ∀ gaps, Fit identity { Machine.recorded x
        { t with journal := some { j with manifest := { j.manifest with activeTurn := none } } }
        { j with manifest := { j.manifest with activeTurn := none } }
        (.gap opening j.manifest.activeTurn incomplete) with
        journal := some { j with
          basePrepared := false, manifest := { j.manifest with activeTurn := none, gaps := gaps } } }
        { j with basePrepared := false, manifest := { j.manifest with activeTurn := none, gaps := gaps } } :=
      fun gaps => ⟨recorded.version_eq, recorded.identity_eq, recorded.ended, recorded.records, recorded.first⟩
    refine (persist_holds rest' rfl quiet loading (fun _ => seat _)
      fun _ _ turn mem => .inr (settled turn mem)).mono fun r u rest now => ?_
    cases r with
    | ok a =>
        obtain ⟨_, rfl⟩ := now
        have seated := (seat (min (j.manifest.gaps + 1) u64Max)).seated fun _ => selected.trans same.symm
        refine ⟨Idle.of_seated (rest.owing _ nofun) quiet rfl seated fun _ => rfl, fun turn mem => ?_⟩
        refine .inr (Settled.mono (settled turn mem) rfl ?_ fun _ _ mem => mem)
        have at_ := (seat (min (j.manifest.gaps + 1) u64Max)).saved.records
        have was := recorded.records
        have chosen : (Machine.recorded x
          { t with journal := some { j with manifest := { j.manifest with activeTurn := none } } }
          { j with manifest := { j.manifest with activeTurn := none } }
          (.gap opening j.manifest.activeTurn incomplete)).selected = j.folder := folder.symm
        rw [chosen]
        exact at_.trans was.symm
    | error e =>
        obtain ⟨quiet, j', journal, _⟩ := now
        exact ⟨quiet, j', journal⟩
  · obtain ⟨quiet, j', journal, _⟩ := now
    exact ⟨quiet, j', journal⟩

theorem resumeBase_holds (lawful : x.Lawful) (rest : Rest x identity owed careful s)
    (journal : s.journal = none) (quiet : s.writing = none) (loading : ¬ load) {manifest : Manifest}
    (version_eq : manifest.version = version) (identity_eq : manifest.identity = identity)
    (selected : folderOf manifest.generation = s.selected) (there : s.manifestAt s.selected = some manifest)
    (ready : careful → ¬ Between x s) (opening : Opening) :
    (resumeBase s.selected opening manifest : Op N Unit).Holds (terms x identity load owed careful)
      (Opened x identity owed careful) s := by
  refine reads_bind (c := .openRecords _) trivial rest (fun i does => ?_) fun e _ => ⟨journal, quiet⟩
  have records : s.recordsAt s.selected = some i := by
    rcases does with ⟨_, does⟩ | ⟨_, _, text, same⟩
    · cases at_ : s.recordsAt s.selected with
      | none => simp [at_] at does
      | some k =>
          simp only [at_, Except.ok.injEq] at does
          rw [does]
    · cases same
  refine Holds.proceed (set_holds _ rest) fun _ t rest' now => ?_
  subst now
  have folder : (⟨i, manifest, false, false, false⟩ : Writer).folder = s.selected := selected
  refine (orDrop_holds (continueBase_holds (j := ⟨i, manifest, false, false, false⟩) lawful rest' rfl
    quiet (fun now => absurd now loading) rfl version_eq identity_eq
    (by rw [folder]; exact records) selected there ready opening)).mono fun r t _ now => ?_
  cases r with
  | ok | error => exact now

theorem fromReservation_holds (lawful : x.Lawful) (idle : Idle x identity owed careful s)
    (journal : s.journal = none) (ready : careful → ¬ Between x s) (generation : Option String)
    (opening : Opening) (fresh : String) :
    (fromReservation identity generation opening fresh : Op N Unit).Holds
      (terms x identity (opening = .load) owed careful) (Opened x identity owed careful) s := by
  have rest := idle.rest
  have quiet := idle.quiet
  have stay : ∀ e, Opened x identity owed careful (.error e) s := fun _ => ⟨journal, quiet⟩
  refine Holds.bind (activeGeneration_holds rest) (fun active t _ now => ?_) fun e t _ now =>
    now.1 ▸ stay e
  obtain ⟨rfl, named⟩ := now
  refine require_bind rest (fun same => ?_) fun _ => stay _
  have chosen : folderOf generation = s.selected := by
    obtain rfl : active = generation := by simpa using same
    rw [← named active rfl]
    rfl
  refine Holds.bind (generationDirectory_holds rest generation) (fun base t _ now => ?_)
    fun e t _ now => now.1 ▸ stay e
  obtain ⟨rfl, is_⟩ := now
  obtain ⟨rfl, _⟩ := is_ base rfl
  refine Holds.bind (publishedManifest_holds rest generation) (fun previous t _ now => ?_)
    fun e t _ now => now.1 ▸ stay e
  obtain ⟨rfl, found⟩ := now
  refine require_bind rest (fun _ => ?_) fun _ => stay _
  refine Holds.bind (removePending_holds rest) (fun _ t rest now => ?_) fun e t _ now => now ▸ stay e
  subst now
  have other := fun l (ne : l ≠ Folder.pending) => dirs_setDir_ne (s := s) ne none
  cases previous with
  | some manifest =>
      obtain ⟨there, version_eq, identity_eq, generation_eq⟩ := found _ rfl
      have there : (s.setDir .pending none).manifestAt (s.setDir .pending none).selected =
          some manifest := by
        rw [setDir_selected, manifestAt_setDir_ne selected_ne_pending, ← chosen]
        exact there
      change (if opening = .load then loadBase identity manifest fresh
        else resumeBase (folderOf generation) opening manifest : Op N Unit).Holds _ _ _
      split
      · exact loadBase_holds lawful rest (setDir_self _ _) journal quiet there fresh
      · next load =>
        rw [chosen]
        refine resumeBase_holds lawful rest journal quiet load version_eq identity_eq
          (generation_eq ▸ chosen) there (fun now => ?_) opening
        exact (show Own x False _ _ from Own.setPending none).calm journal (ready now)
  | none =>
      obtain ⟨rfl, absent⟩ := found _ rfl
      have first : s.active = none := by
        cases active : s.active with
        | none => rfl
        | some a => simp [Machine.selected, active, folderOf] at chosen
      exact newBase_holds rest (setDir_self _ _) journal quiet first
        ((other .current (folderOf_ne_pending none)).trans absent) opening

theorem openJournal_holds (lawful : x.Lawful) (idle : Idle x identity owed careful s)
    (journal : s.journal = none) (ready : careful → ¬ Between x s) (opening : Opening) (fresh : String) :
    (openJournal x identity opening fresh : Op N Unit).Holds
      (terms x identity (opening = .load) owed careful) (Opened x identity owed careful) s := by
  have stay : ∀ e, Opened x identity owed careful (.error e) s := fun _ => ⟨journal, idle.quiet⟩
  have took : (take x identity : Op N (Option String)).Holds
      (terms x identity (opening = .load) owed careful) (fun _ t => s = t) s := by
    refine require_bind idle.rest (fun _ => ?_) fun _ => rfl
    refine require_bind idle.rest (fun _ => ?_) fun _ => rfl
    refine Holds.bind (activeGeneration_holds idle.rest) (fun generation t _ now => ?_) fun _ _ _ now =>
      now.1
    obtain ⟨rfl, _⟩ := now
    exact Holds.bind (publishedManifest_holds idle.rest generation)
      (fun _ _ rest now => ⟨rest, now.1⟩) fun _ _ _ now => now.1
  refine Holds.bind took (fun generation t _ now => ?_) fun e t _ now => now ▸ stay e
  subst now
  exact fromReservation_holds lawful idle journal ready generation opening fresh

end Opening

/-! ### All operations -/

section Requests

variable {N : Type} {x : Externals N} {identity : Identity} {owed : List String} {careful : Prop}
  {s : Machine N}

/-- The opening of a load. -/
def Request.Loads : Request N → Prop
  | .openAs opening _ => opening = .load
  | _ => False

/-- An opening that returned says of every turn it was owed what became of it. -/
def Request.Answered (x : Externals N) (owed : List String) :
    Request N → Except Fault Unit → Machine N → Prop
  | .openAs _ _, .ok _, t => ∀ turn ∈ owed, t.Recorded x turn
  | _, _, _ => True

theorem Request.holds (lawful : x.Lawful) (idle : Idle x identity owed careful s)
    (ready : careful → s.journal = none → ¬ Between x s) (request : Request N)
    (permitted : request.Permitted s) :
    (request.op x identity).Holds (terms x identity request.Loads owed careful)
      (fun r t => Idle x identity (request.settle owed r) careful t ∧ request.Answered x owed r t) s := by
  have writer : s.journal.isSome → ∃ j, s.journal = some j := Option.isSome_iff_exists.1
  cases request with
  | openAs opening fresh =>
      refine (openJournal_holds lawful idle permitted (fun now => ready now permitted) opening
        fresh).mono fun r t rest now => ?_
      cases r with
      | ok a => exact now
      | error e => exact ⟨Idle.of_none rest now.2 now.1, trivial⟩
  | note notification =>
      obtain ⟨j, journal⟩ := writer permitted
      exact (note_holds lawful idle journal notification).mono fun r t _ now => ⟨now, trivial⟩
  | accept turn text images files token =>
      obtain ⟨j, journal⟩ := writer permitted
      refine (accept_holds lawful idle journal turn text images files token).mono fun r t _ now => ?_
      cases r with
      | ok | error => exact ⟨now, trivial⟩
  | finish turn outcome detail =>
      obtain ⟨j, journal⟩ := writer permitted
      refine (finish_holds lawful idle journal turn outcome detail).mono fun r t _ now => ?_
      cases r with
      | ok | error => exact ⟨now, trivial⟩
  | prepareBase =>
      obtain ⟨j, journal⟩ := writer permitted
      exact (prepareBase_holds idle journal).mono fun r t _ now => ⟨now, trivial⟩
  | publishBase =>
      obtain ⟨j, journal⟩ := writer permitted
      exact (publishBase_holds idle journal).mono fun r t _ now => ⟨now, trivial⟩
  | abortBase =>
      obtain ⟨j, journal⟩ := writer permitted
      exact (abortBase_holds idle journal).mono fun r t _ now => ⟨now, trivial⟩
  | drop =>
      obtain ⟨j, journal⟩ := writer permitted
      refine (dropJournal_holds idle.rest journal idle.quiet).mono fun r t rest now => ?_
      obtain ⟨a, rfl, gone, quiet⟩ := now
      exact ⟨Idle.of_none rest quiet gone, trivial⟩

end Requests

end Khor.Node.Journal
