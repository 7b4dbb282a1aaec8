/-
Module: Khor.Lib.Pieces
Purpose: A list cut after each of its marks: where the pieces stand, that they lie one after the other
  and leave nothing out. What is cut may be a part of a longer list.
Trusted boundary: none
Main exports: Marks, Piece, ranges_pairwise, exists_range, ranges_cons
-/
import Mathlib

namespace Khor

section Pieces

variable {α : Type} (p : α → Bool)

/-- The element at `k` is a mark. -/
def Marks (xs : List α) (k : Nat) : Prop := ∃ a ∈ xs[k]?, p a = true

/-- The pieces of a list, a piece having begun at `i` and the list standing at `j`. -/
def ranges (i j : Nat) : List α → List (Nat × Nat)
  | [] => if i = j then [] else [(i, j)]
  | a :: rest => if p a then (i, j + 1) :: ranges (j + 1) (j + 1) rest else ranges i (j + 1) rest

/-- A piece of the part of the list from `lo` up to `hi`. -/
structure Piece (xs : List α) (lo hi a b : Nat) : Prop where
  from_ : lo ≤ a
  lt : a < b
  up : b ≤ hi
  first : a = lo ∨ Marks p xs (a - 1)
  inner : ∀ k, a ≤ k → k + 1 < b → ¬Marks p xs k
  last : Marks p xs (b - 1) ∨ b = hi

variable {p}

variable {xs rest : List α} {hi a b i j : Nat}

/-- Between two marks stands one piece. -/
theorem Piece.unique {lo a' b' : Nat} (h : Piece p xs lo hi a b) (h' : Piece p xs lo hi a' b') (le : a ≤ a')
    (lt : a' < b) : a' = a ∧ b' = b := by
  have start : a' = a := by
    by_contra other
    obtain same | mark := h'.first
    · have := h.from_
      omega
    · exact h.inner (a' - 1) (by omega) (by omega) mark
  subst start
  refine ⟨rfl, ?_⟩
  obtain less | same | more := Nat.lt_trichotomy b' b
  · obtain mark | stops := h'.last
    · exact absurd mark (h.inner (b' - 1) (by have := h'.lt; omega) (by have := h'.lt; omega))
    · have := h.up
      omega
  · exact same
  · obtain mark | stops := h.last
    · exact absurd mark (h'.inner (b - 1) (by have := h.lt; omega) (by have := h.lt; omega))
    · have := h'.up
      omega

theorem mem_ranges_from {lo : Nat} (fits : hi ≤ xs.length) (same : rest = (xs.drop j).take (hi - j)) (from_ : lo ≤ i)
    (le : i ≤ j) (up : j ≤ hi) (first : i = lo ∨ Marks p xs (i - 1)) (inner : ∀ k, i ≤ k → k < j → ¬Marks p xs k) :
    (a, b) ∈ ranges p i j rest ↔ Piece p xs lo hi a b ∧ i ≤ a := by
  induction rest generalizing i j with
  | nil =>
      have stop : j = hi := by
        have none := congrArg List.length same
        simp only [List.length_nil, List.length_take, List.length_drop] at none
        omega
      subst stop
      unfold ranges
      split
      · next begun =>
        constructor
        · nofun
        · rintro ⟨h, ge⟩
          have := h.lt
          have := h.up
          omega
      · next begun =>
        rw [List.mem_singleton, Prod.mk.injEq]
        constructor
        · rintro ⟨rfl, rfl⟩
          exact ⟨⟨from_, by omega, Nat.le_refl _, first, fun k ge lt => inner k ge (by omega), .inr rfl⟩, Nat.le_refl _⟩
        · rintro ⟨h, ge⟩
          have one : Piece p xs lo j i j :=
            ⟨from_, by omega, Nat.le_refl _, first, fun k ge lt => inner k ge (by omega), .inr rfl⟩
          have lt : a < j := Nat.lt_of_lt_of_le h.lt h.up
          exact one.unique h ge lt
  | cons x rest ih =>
      have inside : j < hi := by
        have some := congrArg List.length same
        simp only [List.length_cons, List.length_take, List.length_drop] at some
        omega
      have at_ : xs[j]? = some x := by
        have head := congrArg (fun l : List α => l[0]?) same
        simp only [List.getElem?_cons_zero, List.getElem?_take_of_lt (show 0 < hi - j by omega),
          List.getElem?_drop, Nat.add_zero] at head
        exact head.symm
      have tail : rest = (xs.drop (j + 1)).take (hi - (j + 1)) := by
        have cut := same
        rw [List.drop_eq_getElem_cons (by omega), show hi - j = hi - (j + 1) + 1 by omega,
          List.take_succ_cons] at cut
        exact (List.cons.inj cut).2
      unfold ranges
      split
      · next marked =>
        have mark : Marks p xs j := ⟨x, at_, marked⟩
        have one : Piece p xs lo hi i (j + 1) :=
          ⟨from_, by omega, inside, first, fun k ge lt => inner k ge (by omega), .inl mark⟩
        have rest_ := @ih (j + 1) (j + 1) tail (by omega) (Nat.le_refl _) inside (.inr mark)
          fun k ge lt => by omega
        rw [List.mem_cons, Prod.mk.injEq, rest_]
        constructor
        · rintro (⟨rfl, rfl⟩ | ⟨h, ge⟩)
          · exact ⟨one, Nat.le_refl _⟩
          · exact ⟨h, by omega⟩
        · rintro ⟨h, ge⟩
          by_cases within : a < j + 1
          · exact .inl (one.unique h ge within)
          · exact .inr ⟨h, by omega⟩
      · next unmarked =>
        refine ih tail from_ (by omega) inside first fun k ge lt => ?_
        obtain before | rfl : k < j ∨ k = j := by omega
        · exact inner k ge before
        · rintro ⟨y, there, marked⟩
          rw [at_] at there
          cases there
          exact unmarked marked

/-- The ranges of a part are where its pieces stand. -/
theorem mem_ranges {xs : List α} {lo hi : Nat} (le : lo ≤ hi) (fits : hi ≤ xs.length) {a b : Nat} :
    (a, b) ∈ ranges p lo lo ((xs.drop lo).take (hi - lo)) ↔ Piece p xs lo hi a b := by
  rw [mem_ranges_from fits rfl (Nat.le_refl _) (Nat.le_refl _) le (.inl rfl) fun k ge lt => by omega]
  exact ⟨And.left, fun h => ⟨h, h.from_⟩⟩

theorem le_of_mem_ranges (le : i ≤ j) (h : (a, b) ∈ ranges p i j rest) : i ≤ a ∧ a < b := by
  induction rest generalizing i j with
  | nil =>
      unfold ranges at h
      split at h
      · cases h
      · rw [List.mem_singleton] at h
        cases h
        omega
  | cons x rest ih =>
      unfold ranges at h
      split at h
      · obtain first | later := List.mem_cons.mp h
        · cases first
          omega
        · have := ih (Nat.le_refl _) later
          omega
      · exact ih (by omega) h

/-- Each range stops where the next one starts, or before. -/
theorem ranges_pairwise (le : i ≤ j) (rest : List α) : (ranges p i j rest).Pairwise fun r r' => r.2 ≤ r'.1 := by
  induction rest generalizing i j with
  | nil =>
      unfold ranges
      split
      · exact List.Pairwise.nil
      · exact List.pairwise_singleton _ _
  | cons x rest ih =>
      unfold ranges
      split
      · exact List.pairwise_cons.mpr ⟨fun r mem => (le_of_mem_ranges (Nat.le_refl _) mem).1, ih (Nat.le_refl _)⟩
      · exact ih (by omega)

/-- Every place of the list is in one of the ranges. -/
theorem exists_range {i j k : Nat} {rest : List α} (ge : i ≤ k) (lt : k < j + rest.length) (le : i ≤ j) :
    ∃ r ∈ ranges p i j rest, r.1 ≤ k ∧ k < r.2 := by
  induction rest generalizing i j with
  | nil =>
      unfold ranges
      simp only [List.length_nil, Nat.add_zero] at lt
      rw [if_neg (by omega)]
      exact ⟨(i, j), List.mem_singleton_self _, ge, lt⟩
  | cons x rest ih =>
      rw [List.length_cons] at lt
      unfold ranges
      split
      · by_cases within : k < j + 1
        · exact ⟨(i, j + 1), .head _, ge, within⟩
        · obtain ⟨r, mem, bounds⟩ := ih (i := j + 1) (j := j + 1) (by omega) (by omega) (Nat.le_refl _)
          exact ⟨r, .tail _ mem, bounds⟩
      · exact ih ge (by omega) (by omega)

theorem ranges_cons_from (same : rest = (xs.drop j).take (hi - j)) (fits : hi ≤ xs.length) (le : i ≤ j) (up : j ≤ hi)
    (more : i < hi) (inner : ∀ k, i ≤ k → k < j → ¬Marks p xs k) :
    ∃ b, Piece p xs i hi i b ∧ ranges p i j rest = (i, b) :: ranges p b b ((xs.drop b).take (hi - b)) := by
  induction rest generalizing j with
  | nil =>
      have stop : j = hi := by
        have none := congrArg List.length same
        simp only [List.length_nil, List.length_take, List.length_drop] at none
        omega
      subst stop
      refine ⟨j, ⟨Nat.le_refl _, more, Nat.le_refl _, .inl rfl, fun k ge lt => inner k ge (by omega), .inr rfl⟩, ?_⟩
      rw [Nat.sub_self, List.take_zero]
      unfold ranges
      rw [if_neg (Nat.ne_of_lt more), if_pos rfl]
  | cons x rest ih =>
      have inside : j < hi := by
        have some := congrArg List.length same
        simp only [List.length_cons, List.length_take, List.length_drop] at some
        omega
      have cut := same
      rw [List.drop_eq_getElem_cons (by omega), show hi - j = hi - (j + 1) + 1 by omega,
        List.take_succ_cons] at cut
      obtain ⟨first, tail⟩ := List.cons.inj cut
      have at_ : xs[j]? = some x := by rw [first, List.getElem?_eq_getElem]
      by_cases marked : p x = true
      · have step : ranges p i j (x :: rest) = (i, j + 1) :: ranges p (j + 1) (j + 1) rest := if_pos marked
        rw [step]
        exact ⟨j + 1, ⟨Nat.le_refl _, by omega, inside, .inl rfl, fun k ge lt => inner k ge (by omega),
          .inl ⟨x, at_, marked⟩⟩, by rw [← tail]⟩
      · have step : ranges p i j (x :: rest) = ranges p i (j + 1) rest := if_neg marked
        rw [step]
        refine ih tail (by omega) inside fun k ge lt => ?_
        obtain before | rfl : k < j ∨ k = j := by omega
        · exact inner k ge before
        · rintro ⟨y, there, mark⟩
          rw [at_] at there
          cases there
          exact marked mark

/-- The first piece of a part, and those of what follows it. -/
theorem ranges_cons {xs : List α} {lo hi : Nat} (lt : lo < hi) (fits : hi ≤ xs.length) :
    ∃ b, Piece p xs lo hi lo b ∧
      ranges p lo lo ((xs.drop lo).take (hi - lo)) = (lo, b) :: ranges p b b ((xs.drop b).take (hi - b)) :=
  ranges_cons_from rfl fits (Nat.le_refl _) (by omega) lt fun k ge below => by omega

end Pieces

end Khor
