/-
Module: Khor.Readings.DayStrip
Purpose: The day of one session as a strip: what a minute says of it, and the merge of the minutes down to so many cells,
  each of which says the best of the minutes it covers.
Trusted boundary: none
Main exports: DayCell, Day.cell, Day.stripOf, merged_best, edges_partition
-/
import Khor.Readings.Day

namespace Khor.Readings

/-- What a cell says: a word, that nobody watched, or that the session was not there. -/
inductive DayCell where
  | word (word : Word)
  | unwatched
  | absent
deriving DecidableEq

def DayCell.rank : DayCell → Nat
  | .word w => w.rank
  | .unwatched => 6
  | .absent => 7

/-- One stretch of a strip: a cell repeated. -/
structure Run where
  cell : DayCell
  cells : Nat

/-- What one minute says about one row. -/
def Day.cell (d : Day) (row : Option Cells) (i : Fin MINUTES) : DayCell :=
  if d.watched i ≠ WATCHED then .unwatched
  else if row.any fun cells => cells i = UNWATCHED then .unwatched
  else
    match row.bind fun cells => wordOf (cells i) with
    | some word => .word word
    | none => .absent

def better (best here : DayCell) : DayCell := if here.rank < best.rank then here else best

/-- The minutes of a cell, merged. -/
def Day.merged (d : Day) (row : Option Cells) (lo hi : Nat) : DayCell :=
  ((List.finRange MINUTES).filter fun i => lo ≤ i.val ∧ i.val < hi).foldl (fun best i => better best (d.cell row i))
    .absent

/-- `push`: one more cell at the end. -/
def pushRun (out : List Run) (cell : DayCell) : List Run :=
  match out.getLast? with
  | some run => if run.cell = cell then out.dropLast ++ [⟨cell, run.cells + 1⟩] else out ++ [⟨cell, 1⟩]
  | none => out ++ [⟨cell, 1⟩]

/-- Where the cell `c` of `cells` begins. -/
def edge (cells c : Nat) : Nat := c * MINUTES / cells

/-- One session's day, merged down to `cells` cells. -/
def Day.stripOf (d : Day) (id : String) (cells : Nat) : List Run :=
  let cells := min (max 1 cells) MINUTES
  let row := d.rows.get id
  (List.range cells).foldl (fun out c =>
    let lo := edge cells c
    let hi := max (edge cells (c + 1)) (lo + 1)
    pushRun out (d.merged row lo hi)) []

/-- A strip cell by cell. -/
def unroll (runs : List Run) : List DayCell := runs.flatMap fun run => List.replicate run.cells run.cell

/-! ### The cells of a strip -/

theorem unroll_pushRun (out : List Run) (cell : DayCell) : unroll (pushRun out cell) = unroll out ++ [cell] := by
  have one : unroll [⟨cell, 1⟩] = [cell] := rfl
  have append (a b : List Run) : unroll (a ++ b) = unroll a ++ unroll b := List.flatMap_append
  unfold pushRun
  split
  · rename_i run last
    obtain ⟨front, rfl⟩ := List.getLast?_eq_some_iff.mp last
    split
    · rename_i same
      have longer : unroll [⟨cell, run.cells + 1⟩] = unroll [run] ++ [cell] := by
        subst same
        unfold unroll
        rw [List.flatMap_singleton, List.flatMap_singleton]
        exact List.replicate_succ'
      rw [List.dropLast_concat, append, append, longer, List.append_assoc]
    · rw [append, one]
  · rw [append, one]

variable {cells : Nat}

/-- A strip of no more cells than minutes gives each cell a minute. -/
theorem edge_lt {c : Nat} (some_ : 0 < cells) (few : cells ≤ MINUTES) : edge cells c < edge cells (c + 1) := by
  unfold edge
  rw [Nat.succ_mul]
  have more : c * MINUTES + cells ≤ c * MINUTES + MINUTES := Nat.add_le_add_left few _
  have step : (c * MINUTES + cells) / cells = c * MINUTES / cells + 1 := Nat.add_div_right _ some_
  have : (c * MINUTES + cells) / cells ≤ (c * MINUTES + MINUTES) / cells := Nat.div_le_div_right more
  omega

theorem edge_zero (cells : Nat) : edge cells 0 = 0 := by
  rw [edge, Nat.zero_mul, Nat.zero_div]

theorem edge_last (some_ : 0 < cells) : edge cells cells = MINUTES :=
  Nat.mul_div_cancel_left _ some_

theorem edge_le {c c' : Nat} (le : c ≤ c') : edge cells c ≤ edge cells c' :=
  Nat.div_le_div_right (Nat.mul_le_mul_right _ le)

/-- Every minute is in exactly one cell. -/
theorem edges_partition (some_ : 0 < cells) {i : Nat} (inside : i < MINUTES) :
    ∃ c, c < cells ∧ (edge cells c ≤ i ∧ i < edge cells (c + 1)) ∧
      ∀ c', edge cells c' ≤ i → i < edge cells (c' + 1) → c' = c := by
  have found : ∃ n, i < edge cells n := ⟨cells, (edge_last some_).symm ▸ inside⟩
  have most : Nat.find found ≤ cells := Nat.find_min' found ((edge_last some_).symm ▸ inside)
  have positive : Nat.find found ≠ 0 := by
    intro none
    have past := Nat.find_spec found
    rw [none, edge_zero] at past
    omega
  obtain ⟨c, is⟩ := Nat.exists_eq_succ_of_ne_zero positive
  have past : i < edge cells (c + 1) := by
    have past := Nat.find_spec found
    rw [is] at past
    exact past
  have before : edge cells c ≤ i := Nat.le_of_not_lt (Nat.find_min found (by omega))
  refine ⟨c, by omega, ⟨before, past⟩, ?_⟩
  intro c' le less
  obtain less' | rfl | more := Nat.lt_trichotomy c' c
  · have : edge cells (c' + 1) ≤ edge cells c := edge_le less'
    omega
  · rfl
  · have : edge cells (c + 1) ≤ edge cells c' := edge_le more
    omega

theorem word_rank_lt (word : Word) : word.rank < 6 := by
  cases word <;> decide

theorem rank_le (cell : DayCell) : cell.rank ≤ 7 := by
  cases cell with
  | word word => exact Nat.le_of_lt (Nat.lt_of_lt_of_le (word_rank_lt word) (by decide))
  | unwatched | absent => decide

theorem rank_inj {a b : DayCell} (same : a.rank = b.rank) : a = b := by
  cases a with
  | word word =>
      cases b with
      | word word' =>
          revert same
          cases word <;> cases word' <;> decide
      | unwatched | absent =>
          have := word_rank_lt word
          simp only [DayCell.rank] at same
          omega
  | unwatched | absent =>
      cases b with
      | word word' =>
          have := word_rank_lt word'
          simp only [DayCell.rank] at same
          omega
      | unwatched | absent => first | rfl | cases same

theorem foldl_better (cells : List DayCell) (best : DayCell) :
    (cells.foldl better best = best ∨ cells.foldl better best ∈ cells) ∧
      (cells.foldl better best).rank ≤ best.rank ∧ ∀ cell ∈ cells, (cells.foldl better best).rank ≤ cell.rank := by
  induction cells generalizing best with
  | nil => exact ⟨.inl rfl, le_refl _, fun _ mem => nomatch mem⟩
  | cons cell cells ih =>
      obtain ⟨which, le, all⟩ := ih (better best cell)
      rw [List.foldl_cons]
      have kept : (better best cell).rank ≤ best.rank ∧ (better best cell).rank ≤ cell.rank := by
        unfold better
        split <;> omega
      refine ⟨?_, le.trans kept.1, ?_⟩
      · obtain same | mem := which
        · rw [same]
          unfold better
          split
          · exact .inr (.head _)
          · exact .inl rfl
        · exact .inr (.tail _ mem)
      · intro other mem
        obtain rfl | mem := List.mem_cons.mp mem
        · exact le.trans kept.2
        · exact all other mem

/-- A cell says what one of its minutes says, and no other ranks before it. -/
theorem merged_best (d : Day) (row : Option Cells) {lo hi : Nat} (some_ : lo < hi) (inside : hi ≤ MINUTES) :
    (∃ i : Fin MINUTES, lo ≤ i.val ∧ i.val < hi ∧ d.merged row lo hi = d.cell row i) ∧
      ∀ i : Fin MINUTES, lo ≤ i.val → i.val < hi → (d.merged row lo hi).rank ≤ (d.cell row i).rank := by
  have fold : d.merged row lo hi = (((List.finRange MINUTES).filter fun i => lo ≤ i.val ∧ i.val < hi).map
      (d.cell row)).foldl better .absent := by
    rw [Day.merged, List.foldl_map]
  obtain ⟨which, -, all⟩ := foldl_better
    (((List.finRange MINUTES).filter fun i => lo ≤ i.val ∧ i.val < hi).map (d.cell row)) .absent
  rw [← fold] at which all
  have least (i : Fin MINUTES) (le : lo ≤ i.val) (less : i.val < hi) : (d.merged row lo hi).rank ≤ (d.cell row i).rank := by
    refine all _ (List.mem_map_of_mem (List.mem_filter.mpr ⟨List.mem_finRange i, ?_⟩))
    exact decide_eq_true ⟨le, less⟩
  refine ⟨?_, least⟩
  obtain none | mem := which
  · refine ⟨⟨lo, by omega⟩, le_refl _, some_, ?_⟩
    have le := least ⟨lo, by omega⟩ (le_refl _) some_
    rw [none] at le ⊢
    exact rank_inj (le_antisymm le (rank_le _))
  · obtain ⟨i, mem, is⟩ := List.mem_map.mp mem
    obtain ⟨le, less⟩ := of_decide_eq_true (List.mem_filter.mp mem).2
    exact ⟨i, le, less, is.symm⟩

/-- A strip has so many cells, each the merge of its own minutes. -/
theorem stripOf_unroll (d : Day) (id : String) (some_ : 0 < cells) (few : cells ≤ MINUTES) :
    unroll (d.stripOf id cells) =
      (List.range cells).map fun c => d.merged (d.rows.get id) (edge cells c) (edge cells (c + 1)) := by
  have clamp : min (max 1 cells) MINUTES = cells := by omega
  have cell (c : Nat) : max (edge cells (c + 1)) (edge cells c + 1) = edge cells (c + 1) :=
    max_eq_left (edge_lt some_ few)
  have pushed (cs : List Nat) (f : Nat → DayCell) (out : List Run) :
      unroll (cs.foldl (fun out c => pushRun out (f c)) out) = unroll out ++ cs.map f := by
    induction cs generalizing out with
    | nil => exact (List.append_nil _).symm
    | cons c cs ih =>
        rw [List.foldl_cons, ih, unroll_pushRun, List.append_assoc]
        rfl
  unfold Day.stripOf
  dsimp only
  rw [clamp]
  simp only [cell]
  exact pushed _ _ []

end Khor.Readings
