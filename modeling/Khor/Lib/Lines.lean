/-
Module: Khor.Lib.Lines
Purpose: Bytes as lines: what stands between newlines, and a last line that has none after it.
Trusted boundary: none
Main exports: newline, lines, lines_append, lines_record, lines_close
-/
import Mathlib

namespace Khor

def newline : UInt8 := 10

/-- The lines of what follows a line that has begun. -/
def linesFrom (begun : List UInt8) : List UInt8 → List (List UInt8)
  | [] => if begun = [] then [] else [begun]
  | b :: rest => if b = newline then begun :: linesFrom [] rest else linesFrom (begun ++ [b]) rest

def lines (bytes : List UInt8) : List (List UInt8) := linesFrom [] bytes

/-- Nothing, or a newline at the end. -/
def Ended (bytes : List UInt8) : Prop := bytes = [] ∨ ∃ before, bytes = before ++ [newline]

theorem linesFrom_newline (begun a rest : List UInt8) :
    linesFrom begun (a ++ newline :: rest) = linesFrom begun (a ++ [newline]) ++ linesFrom [] rest := by
  induction a generalizing begun with
  | nil => simp [linesFrom]
  | cons b a ih =>
      simp only [List.cons_append, linesFrom]
      split
      · rw [ih, List.cons_append]
      · exact ih _

variable {line : List UInt8}

theorem linesFrom_plain (plain : newline ∉ line) (begun rest : List UInt8) :
    linesFrom begun (line ++ rest) = linesFrom (begun ++ line) rest := by
  induction line generalizing begun with
  | nil => simp
  | cons b line ih =>
      have ne : b ≠ newline := fun same => plain (same ▸ List.mem_cons_self)
      rw [List.cons_append, linesFrom, if_neg ne, ih fun mem => plain (List.mem_cons_of_mem b mem)]
      simp

/-- Lines after an ended text are lines of their own. -/
theorem lines_append {a : List UInt8} (ended : Ended a) (b : List UInt8) :
    lines (a ++ b) = lines a ++ lines b := by
  rcases ended with rfl | ⟨before, rfl⟩
  · rfl
  · unfold lines
    rw [List.append_assoc, List.singleton_append, linesFrom_newline]

theorem lines_record (plain : newline ∉ line) : lines (line ++ [newline]) = [line] := by
  unfold lines
  rw [linesFrom_plain plain]
  simp [linesFrom]

theorem lines_scrap (plain : newline ∉ line) : lines line = if line = [] then [] else [line] := by
  unfold lines
  rw [← List.append_nil line, linesFrom_plain plain]
  simp [linesFrom]

/-- A newline after a line that has none changes no line. -/
theorem lines_close {a : List UInt8} {b : UInt8} (last : a.getLast? = some b) (open_ : b ≠ newline) :
    lines (a ++ [newline]) = lines a := by
  have from_ : ∀ begun, linesFrom begun (a ++ [newline]) = linesFrom begun a := by
    induction a with
    | nil => cases last
    | cons c a ih =>
        intro begun
        cases a with
        | nil =>
            obtain rfl : c = b := by simpa using last
            simp [linesFrom, open_]
        | cons d a =>
            have still := ih (by simpa using last)
            rw [List.cons_append]
            conv => rhs; unfold linesFrom
            conv => lhs; unfold linesFrom
            rw [still, still]
  exact from_ []

theorem Ended.record (a line : List UInt8) : Ended (a ++ (line ++ [newline])) :=
  .inr ⟨a ++ line, by simp⟩

end Khor
