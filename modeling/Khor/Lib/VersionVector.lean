/-
Module: Khor.Lib.VersionVector
Purpose: Version vectors: finite maps from writers to signed counters, read with absent and negative
  entries as zero, compared pointwise. The order and the equality are the ones a replicated log uses
  to say what another replica still lacks, so both are stated over entries (as they are computed) and
  characterised over all writers (as they are used).
Trusted boundary: none
Main exports: VersionVector, VersionVector.upTo, VersionVector.Includes, VersionVector.Same,
  VersionVector.includes_iff
-/
import Mathlib

namespace Khor

/-- A version vector: for each writer, how many of its operations are held. Counters are signed, as
they travel; a writer that is absent is at zero. -/
abbrev VersionVector (W : Type) := AList (fun _ : W => Int)

namespace VersionVector

variable {W : Type} [DecidableEq W]

/-- The raw entry of a writer, zero when there is none. -/
def get (v : VersionVector W) (w : W) : Int := (v.lookup w).getD 0

/-- How far `v` reaches into `w`'s operations: a negative entry counts as none. -/
def upTo (v : VersionVector W) (w : W) : Nat := (v.get w).toNat

/-- `a` holds everything `b` holds, checked entry by entry of `b`. -/
def Includes (a b : VersionVector W) : Prop :=
  ∀ e ∈ b.entries, e.2.toNat ≤ a.upTo e.1

/-- Neither side has an entry the other does not agree with. -/
def Same (a b : VersionVector W) : Prop :=
  (∀ e ∈ a.entries, b.upTo e.1 = e.2.toNat) ∧ (∀ e ∈ b.entries, a.upTo e.1 = e.2.toNat)

instance (a b : VersionVector W) : Decidable (a.Includes b) :=
  inferInstanceAs (Decidable (∀ e ∈ b.entries, _))

instance (a b : VersionVector W) : Decidable (a.Same b) :=
  inferInstanceAs (Decidable (_ ∧ _))

@[simp] theorem get_empty (w : W) : get (∅ : VersionVector W) w = 0 := by
  simp [get]

@[simp] theorem get_insert_self (v : VersionVector W) (w : W) (n : Int) : get (v.insert w n) w = n := by
  simp [get]

theorem get_insert_ne (v : VersionVector W) {w w' : W} (h : w' ≠ w) (n : Int) :
    get (v.insert w n) w' = v.get w' := by
  simp [get, AList.lookup_insert_ne h]

/-- An entry that is listed is the entry that is read. -/
theorem upTo_of_mem {v : VersionVector W} {e : Sigma fun _ : W => Int} (h : e ∈ v.entries) :
    v.upTo e.1 = e.2.toNat := by
  have hl : v.lookup e.1 = some e.2 := AList.mem_lookup_iff.mpr h
  simp [upTo, get, hl]

/-- A writer that is read above zero is listed. -/
theorem mem_of_upTo_pos {v : VersionVector W} {w : W} (h : 0 < v.upTo w) : ∃ e ∈ v.entries, e.1 = w := by
  cases hl : v.lookup w with
  | none => simp [upTo, get, hl] at h
  | some n => exact ⟨⟨w, n⟩, AList.mem_lookup_iff.mp hl, rfl⟩

/-- Inclusion, over all writers. -/
theorem includes_iff {a b : VersionVector W} : a.Includes b ↔ ∀ w, b.upTo w ≤ a.upTo w := by
  constructor
  · intro h w
    rcases Nat.eq_zero_or_pos (b.upTo w) with hz | hpos
    · omega
    · obtain ⟨e, he, rfl⟩ := mem_of_upTo_pos hpos
      rw [upTo_of_mem he]
      exact h e he
  · intro h e he
    rw [← upTo_of_mem he]
    exact h e.1

/-- Equality, over all writers. -/
theorem same_iff {a b : VersionVector W} : a.Same b ↔ ∀ w, a.upTo w = b.upTo w := by
  constructor
  · intro h w
    apply Nat.le_antisymm
    · refine includes_iff.mp (fun e he => ?_) w
      rw [h.1 e he]
    · refine includes_iff.mp (fun e he => ?_) w
      rw [h.2 e he]
  · intro h
    exact ⟨fun e he => by rw [← h, upTo_of_mem he], fun e he => by rw [h, upTo_of_mem he]⟩

theorem Includes.trans {a b c : VersionVector W} (hab : a.Includes b) (hbc : b.Includes c) : a.Includes c :=
  includes_iff.mpr fun w =>
    Nat.le_trans (includes_iff.mp hbc w) (includes_iff.mp hab w)

end VersionVector

end Khor
