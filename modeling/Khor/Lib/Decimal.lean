/-
Module: Khor.Lib.Decimal
Purpose: Decimal text for bounded unsigned integers: a printer, a parser that takes an optional plus
  sign and refuses everything that is not digits or does not fit, and trimming of white space. What is
  printed parses back.
Trusted boundary: none
Main exports: Text, decimal, parseBounded, trim, parseBounded_decimal
-/
import Mathlib

namespace Khor

/-- Text, character by character. -/
abbrev Text := List Char

/-- The character of a digit below ten. -/
def digitChar (d : Nat) : Char := Char.ofNat (48 + d)

/-- The digit a character stands for. -/
def digitValue (c : Char) : Nat := c.toNat - 48

/-- The digits of `n` in front of `rest`. -/
def decimalOnto : Nat → Nat → Text → Text
  | 0, _, rest => rest
  | fuel + 1, n, rest =>
      if n < 10 then digitChar n :: rest
      else decimalOnto fuel (n / 10) (digitChar (n % 10) :: rest)

/-- `n` in decimal, no leading zeros. -/
def decimal (n : Nat) : Text := decimalOnto (n + 1) n []

/-- Read digits, most significant first. -/
def readDigits (acc : Nat) (digits : Text) : Nat :=
  digits.foldl (fun value c => value * 10 + digitValue c) acc

/-- Drop one leading plus sign. -/
def dropPlus : Text → Text
  | '+' :: rest => rest
  | text => text

/-- Parse an unsigned integer below `bound`: an optional plus sign, then at least one digit and
nothing else. -/
def parseBounded (bound : Nat) (text : Text) : Option Nat :=
  let digits := dropPlus text
  if digits ≠ [] ∧ digits.all Char.isDigit ∧ readDigits 0 digits < bound then
    some (readDigits 0 digits)
  else none

/-- The characters Unicode calls white space. -/
def isSpace (c : Char) : Bool :=
  let n := c.toNat
  (9 ≤ n && n ≤ 13) || n == 32 || n == 0x85 || n == 0xA0 || n == 0x1680 ||
    (0x2000 ≤ n && n ≤ 0x200A) || n == 0x2028 || n == 0x2029 || n == 0x202F || n == 0x205F ||
    n == 0x3000

/-- Text without the white space around it. -/
def trim (text : Text) : Text :=
  ((text.dropWhile isSpace).reverse.dropWhile isSpace).reverse

private theorem digit_spec : ∀ d < 10,
    (digitChar d).isDigit = true ∧ digitValue (digitChar d) = d ∧ digitChar d ≠ '+' := by
  decide

/-- What the printer puts in front of `rest` is digits that read as `n`, and not empty. -/
theorem decimalOnto_spec {fuel n : Nat} (enough : n < fuel) (rest : Text) :
    ∃ front, decimalOnto fuel n rest = front ++ rest ∧ front ≠ [] ∧
      (∀ c ∈ front, c.isDigit = true ∧ c ≠ '+') ∧ readDigits 0 front = n := by
  induction fuel generalizing n rest with
  | zero => exact absurd enough (Nat.not_lt_zero n)
  | succ fuel ih =>
      unfold decimalOnto
      split
      · rename_i small
        obtain ⟨isDigit, value, notPlus⟩ := digit_spec n small
        refine ⟨[digitChar n], rfl, by simp, ?_, ?_⟩
        · intro c hc
          rw [List.mem_singleton] at hc
          subst hc
          exact ⟨isDigit, notPlus⟩
        · simp [readDigits, value]
      · rename_i big
        obtain ⟨isDigit, value, notPlus⟩ := digit_spec (n % 10) (Nat.mod_lt n (by omega))
        obtain ⟨front, hfront, _, hchars, hread⟩ :=
          ih (show n / 10 < fuel by omega) (digitChar (n % 10) :: rest)
        refine ⟨front ++ [digitChar (n % 10)], by simp [hfront], by simp, ?_, ?_⟩
        · intro c hc
          rcases List.mem_append.mp hc with inFront | last
          · exact hchars c inFront
          · rw [List.mem_singleton] at last
            subst last
            exact ⟨isDigit, notPlus⟩
        · have : readDigits 0 (front ++ [digitChar (n % 10)]) =
              readDigits 0 front * 10 + digitValue (digitChar (n % 10)) := by
            simp [readDigits, List.foldl_append]
          rw [this, hread, value]
          omega

/-- The printed form is a nonempty run of digits that read as the number. -/
theorem decimal_spec (n : Nat) :
    decimal n ≠ [] ∧ (∀ c ∈ decimal n, c.isDigit = true ∧ c ≠ '+') ∧
      readDigits 0 (decimal n) = n := by
  obtain ⟨front, hfront, nonempty, hchars, hread⟩ := decimalOnto_spec (Nat.lt_succ_self n) []
  rw [List.append_nil] at hfront
  rw [decimal, hfront]
  exact ⟨nonempty, hchars, hread⟩

/-- A printed number that fits parses back. -/
theorem parseBounded_decimal {bound n : Nat} (fits : n < bound) : parseBounded bound (decimal n) = some n := by
  obtain ⟨nonempty, hchars, hread⟩ := decimal_spec n
  have noPlus : dropPlus (decimal n) = decimal n := by
    cases htext : decimal n with
    | nil => rfl
    | cons c rest =>
        have hc : c ≠ '+' := (hchars c (htext ▸ List.mem_cons_self)).2
        unfold dropPlus
        split
        · rename_i heq
          exact absurd (List.cons.inj heq).1 hc
        · rfl
  have allDigits : (decimal n).all Char.isDigit = true :=
    List.all_eq_true.mpr fun c hc => (hchars c hc).1
  simp [parseBounded, noPlus, nonempty, allDigits, hread, fits]

end Khor
