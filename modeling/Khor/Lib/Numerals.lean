/-
Module: Khor.Lib.Numerals
Purpose: The numerals of the language in a base of up to sixteen: they tell numbers apart, and no other sign is among
  their digits.
Trusted boundary: none
Main exports: hexadecimal, mem_toDigits, toDigits_inj
-/
import Mathlib

namespace Khor

/-- A number in lower-case hexadecimal, no leading zeros. -/
def hexadecimal (n : Nat) : String := String.ofList (Nat.toDigits 16 n)

theorem digitChar_inj {a b : Nat} (la : a < 16) (lb : b < 16) (same : a.digitChar = b.digitChar) : a = b := by
  have all : ∀ x y : Fin 16, x.val.digitChar = y.val.digitChar → x = y := by decide
  exact congrArg Fin.val (all ⟨a, la⟩ ⟨b, lb⟩ same)

variable {base : Nat}

/-- Every sign of a numeral is a digit of its base. -/
theorem mem_toDigits (two : 1 < base) {n : Nat} {c : Char} (mem : c ∈ Nat.toDigits base n) :
    ∃ d < base, c = d.digitChar := by
  induction n using Nat.strongRecOn with
  | ind n ih =>
      rw [Nat.toDigits_eq_if two] at mem
      split at mem
      · rename_i small
        exact ⟨n, small, List.mem_singleton.mp mem⟩
      · rename_i large
        obtain front | last := List.mem_append.mp mem
        · exact ih (n / base) (Nat.div_lt_self (by omega) two) front
        · exact ⟨n % base, Nat.mod_lt n (by omega), List.mem_singleton.mp last⟩

/-- Numbers are told apart by their numerals: by the last digit, and before it by what is left. -/
theorem toDigits_inj (two : 1 < base) (le : base ≤ 16) {a b : Nat} (same : Nat.toDigits base a = Nat.toDigits base b) :
    a = b := by
  induction a using Nat.strongRecOn generalizing b with
  | ind a ih =>
      rw [Nat.toDigits_eq_if two, Nat.toDigits_eq_if (n := b) two] at same
      split at same <;> split at same
      · rename_i smallA smallB
        exact digitChar_inj (by omega) (by omega) (List.singleton_inj.mp same)
      · have nothing : Nat.toDigits base (b / base) = [] := by
          have : ([] ++ [a.digitChar]) = _ := same
          exact (List.append_inj_left' this rfl).symm
        exact absurd nothing Nat.toDigits_ne_nil
      · have nothing : Nat.toDigits base (a / base) = [] := by
          have : _ = ([] ++ [b.digitChar]) := same
          exact List.append_inj_left' this rfl
        exact absurd nothing Nat.toDigits_ne_nil
      · rename_i largeA largeB
        have front : a / base = b / base :=
          ih (a / base) (Nat.div_lt_self (by omega) two) (List.append_inj_left' same rfl)
        have last : a % base = b % base := by
          have both := List.singleton_inj.mp (List.append_inj_right' same rfl)
          have lessA : a % base < base := Nat.mod_lt a (by omega)
          have lessB : b % base < base := Nat.mod_lt b (by omega)
          exact digitChar_inj (by omega) (by omega) both
        calc a = base * (a / base) + a % base := (Nat.div_add_mod a base).symm
          _ = base * (b / base) + b % base := by rw [front, last]
          _ = b := Nat.div_add_mod b base

/-- A sign that is no digit is not in a numeral. -/
theorem notMem_toDigits (two : 1 < base) (le : base ≤ 16) {c : Char} (other : ∀ d < 16, c ≠ d.digitChar) (n : Nat) :
    c ∉ Nat.toDigits base n := by
  intro mem
  obtain ⟨d, less, is⟩ := mem_toDigits two mem
  exact other d (by omega) is

/-- What stands before the first mark is told apart from what stands after it. -/
theorem cut_at_mark {α : Type} {c : α} {xs xs' ys ys' : List α} (notIn : c ∉ xs) (notIn' : c ∉ xs')
    (same : xs ++ c :: ys = xs' ++ c :: ys') : xs = xs' ∧ ys = ys' := by
  induction xs generalizing xs' with
  | nil =>
      cases xs' with
      | nil => exact ⟨rfl, (List.cons.inj same).2⟩
      | cons x rest => exact absurd ((List.cons.inj same).1 ▸ List.mem_cons_self) notIn'
  | cons x rest ih =>
      cases xs' with
      | nil => exact absurd ((List.cons.inj same).1 ▸ List.mem_cons_self) notIn
      | cons y rest' =>
          obtain ⟨rfl, tail⟩ := List.cons.inj same
          obtain ⟨rfl, ends⟩ := ih (fun h => notIn (.tail x h))
            (fun h => notIn' (.tail x h)) tail
          exact ⟨rfl, ends⟩

end Khor
