/-
Module: Khor.Lib.Lossy
Purpose: `String::from_utf8_lossy` on bytes: each stretch that is not UTF-8 becomes U+FFFD. ASCII stays as it is.
Trusted boundary: none
Main exports: lossy, lossy_ascii
-/
import Mathlib

namespace Khor

/-- U+FFFD in UTF-8. -/
def REPLACEMENT : List UInt8 := [0xEF, 0xBF, 0xBD]

def isContinuation (b : UInt8) : Bool := 0x80 ≤ b && b ≤ 0xBF

/-- The second byte may follow the first. -/
def mayFollow (a b : UInt8) : Bool :=
  if 0xC2 ≤ a && a ≤ 0xDF then isContinuation b
  else if a = 0xE0 then 0xA0 ≤ b && b ≤ 0xBF
  else if a = 0xED then 0x80 ≤ b && b ≤ 0x9F
  else if 0xE1 ≤ a && a ≤ 0xEF then isContinuation b
  else if a = 0xF0 then 0x90 ≤ b && b ≤ 0xBF
  else if a = 0xF4 then 0x80 ≤ b && b ≤ 0x8F
  else 0xF1 ≤ a && a ≤ 0xF3 && isContinuation b

/-- How many bytes the next character has, or the stretch that is none, and which of the two it is. -/
def chunk (a : UInt8) (rest : List UInt8) : Nat × Bool :=
  if a < 0x80 then (1, true)
  else
    match rest with
    | [] => (1, false)
    | b :: rest =>
        if !mayFollow a b then (1, false)
        else if a ≤ 0xDF then (2, true)
        else
          match rest with
          | [] => (2, false)
          | c :: rest =>
              if !isContinuation c then (2, false)
              else if a ≤ 0xEF then (3, true)
              else
                match rest with
                | [] => (3, false)
                | d :: _ => if isContinuation d then (4, true) else (3, false)

/-- At most `fuel` characters and stretches. -/
def lossyFor : Nat → List UInt8 → List UInt8
  | 0, _ | _, [] => []
  | fuel + 1, a :: rest =>
      let (n, whole) := chunk a rest
      (if whole then (a :: rest).take n else REPLACEMENT) ++ lossyFor fuel ((a :: rest).drop n)

def lossy (bytes : List UInt8) : List UInt8 := lossyFor bytes.length bytes

theorem lossy_ascii {bytes : List UInt8} (ascii : ∀ b ∈ bytes, b < 0x80) : lossy bytes = bytes := by
  unfold lossy
  induction bytes with
  | nil => rfl
  | cons a rest ih =>
      have first : chunk a rest = (1, true) := if_pos (ascii a (.head _))
      rw [List.length_cons, lossyFor, first]
      show a :: lossyFor rest.length rest = a :: rest
      rw [ih fun b mem => ascii b (List.mem_cons_of_mem a mem)]

end Khor
