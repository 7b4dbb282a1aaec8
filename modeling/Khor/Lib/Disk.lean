/-
Module: Khor.Lib.Disk
Purpose: Names on a disk and the files they stand for. A file can have several names; a rename moves a name over
  another one.
Trusted boundary: none
Main exports: File, Entry, Disk, Disk.text, Disk.Keeps
-/
import Mathlib

namespace Khor

/-- A file without its names. -/
structure File (Attr : Type) where
  data : List UInt8
  attr : Attr

/-- What a name stands for. -/
inductive Entry (Link : Type) where
  | file (ino : Nat)
  | link (target : Link)
  | dir

/-- No name stands for a file from `next` on. -/
structure Disk (Place Link Attr : Type) where
  names : Place → Option (Entry Link)
  files : Nat → File Attr
  next : Nat
  bound : ∀ p ino, names p = some (.file ino) → ino < next

namespace Disk

section Disks

variable {Place Link Attr : Type} [DecidableEq Place]

/-! ### Steps -/

/-- A new file under a name. -/
def grow (d : Disk Place Link Attr) (p : Place) (file : File Attr) : Disk Place Link Attr where
  names := fun q => if q = p then some (.file d.next) else d.names q
  files := fun ino => if ino = d.next then file else d.files ino
  next := d.next + 1
  bound := by
    intro q ino is
    split at is
    · cases is
      omega
    · have := d.bound q ino is
      omega

def fill (d : Disk Place Link Attr) (ino : Nat) (data : List UInt8) : Disk Place Link Attr :=
  { d with files := fun k => if k = ino then { d.files ino with data } else d.files k }

def drop (d : Disk Place Link Attr) (p : Place) : Disk Place Link Attr :=
  { d with
    names := fun q => if q = p then none else d.names q
    bound := by
      intro q ino is
      split at is
      · cases is
      · exact d.bound q ino is }

/-- The name `p` goes over the name `q`. -/
def move (d : Disk Place Link Attr) (p q : Place) : Disk Place Link Attr :=
  { d with
    names := fun r => if r = p then none else if r = q then d.names p else d.names r
    bound := by
      intro r ino is
      split at is
      · cases is
      · split at is
        · exact d.bound p ino is
        · exact d.bound r ino is }

/-- A name does not go over a directory, and two names of one file stay as they are. -/
def rename (d : Disk Place Link Attr) (p q : Place) : Option (Disk Place Link Attr) :=
  match d.names p, d.names q with
  | none, _ => none
  | _, some .dir => none
  | some (.file ino), some (.file ino') => some (if ino = ino' then d else d.move p q)
  | _, _ => some (if p = q then d else d.move p q)

/-! ### What a name says -/

/-- The contents of the file under a name. -/
def text (d : Disk Place Link Attr) (p : Place) : Option (List UInt8) :=
  match d.names p with
  | some (.file ino) => some (d.files ino).data
  | _ => none

/-- No other name stands for the file. -/
def Lone (d : Disk Place Link Attr) (p : Place) (ino : Nat) : Prop :=
  ∀ q, q ≠ p → d.names q ≠ some (.file ino)

/-- A file with these attributes and no other name. -/
def Plain (d : Disk Place Link Attr) (attr : Attr) (p : Place) : Prop :=
  ∃ ino, d.names p = some (.file ino) ∧ (d.files ino).attr = attr ∧ d.Lone p ino

/-- A name says the same, apart from the contents of the file. -/
def Keeps (d d' : Disk Place Link Attr) (p : Place) : Prop :=
  match d.names p with
  | some (.file ino) =>
      ∃ ino', d'.names p = some (.file ino') ∧ (d'.files ino').attr = (d.files ino).attr ∧
        ∀ q, q ≠ p → (d'.names q = some (.file ino') ↔ d.names q = some (.file ino))
  | e => d'.names p = e

omit [DecidableEq Place] in
theorem Keeps.refl (d : Disk Place Link Attr) (p : Place) : d.Keeps d p := by
  unfold Keeps
  split
  · rename_i ino is
    exact ⟨ino, is, rfl, fun q _ => .rfl⟩
  · rfl

omit [DecidableEq Place] in
theorem Keeps.trans {d d' d'' : Disk Place Link Attr} {p : Place} (h : d.Keeps d' p) (h' : d'.Keeps d'' p) :
    d.Keeps d'' p := by
  unfold Keeps at h ⊢
  split
  · rename_i ino is
    rw [is] at h
    obtain ⟨ino', is', attr, others⟩ := h
    unfold Keeps at h'
    rw [is'] at h'
    obtain ⟨ino'', is'', attr', others'⟩ := h'
    exact ⟨ino'', is'', attr'.trans attr, fun q ne => (others' q ne).trans (others q ne)⟩
  · rename_i not_
    have same : d'.names p = d.names p := by
      split at h
      · rename_i ino is
        exact absurd is (not_ ino)
      · exact h
    unfold Keeps at h'
    split at h'
    · rename_i ino is
      exact absurd (same ▸ is) (not_ ino)
    · exact h'.trans same

variable {d d' : Disk Place Link Attr} {p q : Place} {attr : Attr}

omit [DecidableEq Place] in
theorem Keeps.plain (h : d.Keeps d' p) (is : d.Plain attr p) : d'.Plain attr p := by
  obtain ⟨ino, named, had, lone⟩ := is
  unfold Keeps at h
  rw [named] at h
  obtain ⟨ino', named', same, others⟩ := h
  exact ⟨ino', named', same.trans had, fun q ne other => lone q ne ((others q ne).mp other)⟩

omit [DecidableEq Place] in
/-- Plain files with the same attributes differ in their contents only. -/
theorem Plain.keeps (h : d.Plain attr p) (h' : d'.Plain attr p) : d.Keeps d' p := by
  obtain ⟨ino, named, had, lone⟩ := h
  obtain ⟨ino', named', has, lone'⟩ := h'
  unfold Keeps
  rw [named]
  exact ⟨ino', named', has.trans had.symm, fun q ne => ⟨fun is => absurd is (lone' q ne), fun is => absurd is (lone q ne)⟩⟩

/-! ### Steps about one name -/

/-- Nothing changed but one name and the file that it alone stands for. -/
structure Only (d d' : Disk Place Link Attr) (q : Place) : Prop where
  names : ∀ p, p ≠ q → d'.names p = d.names p
  files : ∀ p, p ≠ q → ∀ ino, d.names p = some (.file ino) → d'.files ino = d.files ino
  apart : ∀ p, p ≠ q → ∀ ino, d.names p = some (.file ino) →
    (d'.names q = some (.file ino) ↔ d.names q = some (.file ino))

omit [DecidableEq Place] in
theorem Only.text (h : d.Only d' q) (ne : p ≠ q) : d'.text p = d.text p := by
  unfold Disk.text
  rw [h.names p ne]
  split
  · rename_i ino is
    rw [h.files p ne ino is]
  · rfl

omit [DecidableEq Place] in
theorem Only.keeps (h : d.Only d' q) (ne : p ≠ q) : d.Keeps d' p := by
  unfold Disk.Keeps
  split
  · rename_i ino is
    refine ⟨ino, (h.names p ne).trans is, by rw [h.files p ne ino is], fun r other => ?_⟩
    by_cases here : r = q
    · rw [here]
      exact h.apart p ne ino is
    · rw [h.names r here]
  · exact h.names p ne

theorem grow_only (free : d.names q = none) (file : File Attr) : d.Only (d.grow q file) q where
  names := fun p ne => if_neg ne
  files := fun p _ ino is => if_neg (by have := d.bound p ino is; omega)
  apart := by
    intro p _ ino is
    have := d.bound p ino is
    have ne : d.next ≠ ino := by omega
    simp [grow, free, ne]

theorem grow_plain (d : Disk Place Link Attr) (q : Place) (file : File Attr) :
    (d.grow q file).Plain file.attr q := by
  refine ⟨d.next, if_pos rfl, ?_, fun p ne is => ?_⟩
  · simp [grow]
  · have is : d.names p = some (.file d.next) := by simpa [grow, ne] using is
    have := d.bound p d.next is
    omega

omit [DecidableEq Place] in
theorem fill_only {ino : Nat} (lone : d.Lone q ino) (data : List UInt8) : d.Only (d.fill ino data) q where
  names := fun _ _ => rfl
  files := fun p ne k is => if_neg fun (same : k = ino) => lone p ne (same ▸ is)
  apart := fun _ _ _ _ => .rfl

omit [DecidableEq Place] in
theorem fill_plain (h : d.Plain attr q) (ino : Nat) (data : List UInt8) : (d.fill ino data).Plain attr q := by
  obtain ⟨k, named, had, lone⟩ := h
  refine ⟨k, named, ?_, lone⟩
  unfold fill
  dsimp only
  split
  · rename_i same
    exact same ▸ had
  · exact had

theorem drop_only (h : d.Plain attr q) : d.Only (d.drop q) q where
  names := fun p ne => if_neg ne
  files := fun _ _ _ _ => rfl
  apart := by
    obtain ⟨k, named, _, lone⟩ := h
    intro p ne ino is
    have other : k ≠ ino := fun same => lone p ne (same ▸ is)
    simp [drop, named, other]

/-! ### A new file in place -/

/-- A plain file goes over a plain one, or where nothing is. -/
theorem rename_lands (ne : p ≠ q) (new : d.Plain attr p) (old : d.names q = none ∨ d.Plain attr q)
    (is : d.rename p q = some d') : d' = d.move p q := by
  obtain ⟨ino, named, _, lone⟩ := new
  unfold rename at is
  rw [named] at is
  obtain free | ⟨k, there, _⟩ := old
  · rw [free] at is
    dsimp only at is
    rw [if_neg ne] at is
    exact (Option.some.inj is).symm
  · rw [there] at is
    have other : ino ≠ k := fun same => lone q (Ne.symm ne) (same ▸ there)
    dsimp only at is
    rw [if_neg other] at is
    exact (Option.some.inj is).symm

theorem move_plain (ne : p ≠ q) (new : d.Plain attr p) : (d.move p q).Plain attr q := by
  obtain ⟨ino, named, had, lone⟩ := new
  refine ⟨ino, by simp [move, Ne.symm ne, named], had, fun r other is => ?_⟩
  unfold move at is
  dsimp only at is
  rw [if_neg other] at is
  split at is
  · cases is
  · rename_i apart
    exact lone r apart is

theorem move_text (ne : p ≠ q) : (d.move p q).text q = d.text p := by
  simp [text, move, Ne.symm ne]

theorem move_free (d : Disk Place Link Attr) (p q : Place) : (d.move p q).names p = none := if_pos rfl

/-- The names besides the two keep what they say. -/
theorem move_keeps {r : Place} (new : d.Plain attr p) (old : d.names q = none ∨ d.Plain attr q) (np : r ≠ p)
    (nq : r ≠ q) : d.Keeps (d.move p q) r := by
  have same : (d.move p q).names r = d.names r := by simp [move, np, nq]
  unfold Keeps
  split
  · rename_i ino is
    refine ⟨ino, same.trans is, rfl, fun s _ => ?_⟩
    obtain ⟨k, named, _, lone⟩ := new
    have newOther : k ≠ ino := fun eq => lone r np (eq ▸ is)
    have oldOther : d.names q ≠ some (.file ino) := by
      obtain free | ⟨k', there, _, lone'⟩ := old
      · simp [free]
      · rw [there]
        intro eq
        cases eq
        exact lone' r nq is
    unfold move
    dsimp only
    split
    · rename_i here
      simp [here, named, newOther]
    · split
      · rename_i here
        rw [here, named]
        refine ⟨fun eq => ?_, fun eq => absurd eq oldOther⟩
        cases eq
        exact absurd rfl newOther
      · exact .rfl
  · exact same

theorem move_text_other {r : Place} (np : r ≠ p) (nq : r ≠ q) : (d.move p q).text r = d.text r := by
  simp [text, move, np, nq]

end Disks

end Disk

end Khor
