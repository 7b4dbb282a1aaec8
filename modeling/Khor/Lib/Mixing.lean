/-
Module: Khor.Lib.Mixing
Purpose: A word that takes in bytes, one after the other: the byte is laid over it and the word multiplied. With a
  multiplier of the form 8n + 3, low bytes alone lead from every word to every other one.
Trusted boundary: none
Main exports: mix, Leads, leads
-/
import Mathlib

namespace Khor.Mixing

/-- One byte taken in. -/
def mix (prime h byte : UInt64) : UInt64 := (h ^^^ byte) * prime

/-- `h` becomes `g` over bytes below eight. -/
def Leads (prime h g : UInt64) : Prop :=
  ∃ bytes : List UInt64, (∀ byte ∈ bytes, byte.toNat < 8) ∧ bytes.foldl (mix prime) h = g

variable {prime h g k : UInt64}

theorem Leads.refl : Leads prime h h := ⟨[], by simp, rfl⟩

theorem Leads.trans (first : Leads prime h g) (second : Leads prime g k) : Leads prime h k := by
  obtain ⟨front, low, rfl⟩ := first
  obtain ⟨back, low', rfl⟩ := second
  refine ⟨front ++ back, ?_, List.foldl_append⟩
  intro byte there
  exact (List.mem_append.mp there).elim (low byte) (low' byte)

/-- Zero bytes multiply. -/
theorem Leads.times (n : Nat) : Leads prime h (h * prime ^ n) := by
  induction n with
  | zero => simpa using Leads.refl
  | succ n ih =>
      refine ih.trans ⟨[0], by simp, ?_⟩
      simp [mix, pow_succ, mul_assoc]

/-- Squared over and over, the prime comes ever closer to one. -/
theorem pow_two_pow {p : Nat} (three : p % 8 = 3) (n : Nat) :
    ∃ c, p ^ 2 ^ (n + 1) = 1 + 2 ^ (n + 3) + 2 ^ (n + 4) * c := by
  induction n with
  | zero =>
      refine ⟨4 * (p / 8) ^ 2 + 3 * (p / 8), ?_⟩
      obtain ⟨q, rfl⟩ : ∃ q, p = 8 * q + 3 := ⟨p / 8, by omega⟩
      have div : (8 * q + 3) / 8 = q := by omega
      rw [div]
      ring
  | succ n ih =>
      obtain ⟨c, is⟩ := ih
      refine ⟨c + 2 ^ (n + 1) * (1 + 2 * c) ^ 2, ?_⟩
      rw [pow_succ 2 (n + 1), pow_mul, is]
      ring


theorem toNat_pow (n : Nat) : (prime ^ n).toNat = prime.toNat ^ n % 2 ^ 64 := by
  induction n with
  | zero => simp
  | succ n ih => rw [pow_succ, UInt64.toNat_mul, ih, Nat.mod_mul_mod, ← pow_succ]

theorem pow_one (three : prime.toNat % 8 = 3) : prime ^ 2 ^ 62 = 1 := by
  obtain ⟨c, is⟩ := pow_two_pow three 61
  have whole : prime.toNat ^ 2 ^ 62 % 2 ^ 64 = 1 := by
    rw [is]
    omega
  rw [← UInt64.toNat_inj, toNat_pow, whole]
  rfl

/-- A low byte may be laid over the word without multiplying. -/
theorem Leads.xor (three : prime.toNat % 8 = 3) {byte : UInt64} (low : byte.toNat < 8) :
    Leads prime h (h ^^^ byte) := by
  have one : Leads prime h ((h ^^^ byte) * prime) := ⟨[byte], by simpa using low, rfl⟩
  have around := one.trans (Leads.times (2 ^ 62 - 1))
  have back : (h ^^^ byte) * prime * prime ^ (2 ^ 62 - 1) = h ^^^ byte := by
    rw [mul_assoc, ← pow_succ', Nat.sub_add_cancel Nat.one_le_two_pow, pow_one three, mul_one]
  rwa [back] at around

/-- Two numbers alike below a power of two and not below the next one are that power apart. -/
theorem apart_mod {a b m : Nat} (below : a % m = b % m) (apart : a % (2 * m) ≠ b % (2 * m)) :
    (a + m) % (2 * m) = b % (2 * m) := by
  obtain rfl | positive := Nat.eq_zero_or_pos m
  · simp at below
    simp [below] at apart
  have whole : ∀ n, n % (2 * m) = n % m ∨ n % (2 * m) = n % m + m := by
    intro n
    rw [Nat.mul_comm, Nat.mod_mul]
    rcases Nat.mod_two_eq_zero_or_one (n / m) with even | odd
    · simp [even]
    · simp [odd]
  have small := Nat.mod_lt a positive
  rw [Nat.add_mod, Nat.mod_eq_of_lt (show m < 2 * m by omega)]
  rcases whole a with is | is <;> rcases whole b with is' | is'
  · omega
  · rw [Nat.mod_eq_of_lt] <;> omega
  · rw [is, is', show a % m + m + m = a % m + 2 * m by omega, Nat.add_mod_right, Nat.mod_eq_of_lt] <;> omega
  · omega

/-- Multiplied by the right power, an odd word changes in one bit and in those above it. -/
theorem times_mod (three : prime.toNat % 8 = 3) (odd : h.toNat % 2 = 1) {n : Nat} (fits : n + 4 ≤ 64) :
    (h * prime ^ 2 ^ (n + 1)).toNat % 2 ^ (n + 4) = (h.toNat + 2 ^ (n + 3)) % 2 ^ (n + 4) := by
  obtain ⟨c, is⟩ := pow_two_pow three n
  have half : h.toNat = 2 * (h.toNat / 2) + 1 := by omega
  have whole : h.toNat * (1 + 2 ^ (n + 3) + 2 ^ (n + 4) * c) =
      h.toNat + 2 ^ (n + 3) + 2 ^ (n + 4) * (h.toNat / 2 + h.toNat * c) := by
    rw [half]
    generalize h.toNat / 2 = q
    rw [show (2 * q + 1) / 2 = q by omega]
    ring
  rw [UInt64.toNat_mul, toNat_pow, Nat.mul_mod_mod, Nat.mod_mod_of_dvd _ (Nat.pow_dvd_pow 2 fits), is, whole,
    Nat.add_mul_mod_self_left]

theorem Leads.agreeing (three : prime.toNat % 8 = 3) (odd : g.toNat % 2 = 1) (n : Nat) (fits : n + 3 ≤ 64) :
    ∃ k, Leads prime h k ∧ k.toNat % 2 ^ (n + 3) = g.toNat % 2 ^ (n + 3) := by
  induction n with
  | zero =>
      have low : (UInt64.ofNat ((h.toNat ^^^ g.toNat) % 2 ^ 3)).toNat = (h.toNat ^^^ g.toNat) % 2 ^ 3 := by
        rw [UInt64.toNat_ofNat']
        omega
      refine ⟨_, Leads.xor three (low.trans_lt (by omega)), ?_⟩
      rw [UInt64.toNat_xor, low]
      apply Nat.eq_of_testBit_eq
      intro i
      simp only [Nat.testBit_mod_two_pow, Nat.testBit_xor]
      cases decide (i < 3) <;> cases h.toNat.testBit i <;> simp
  | succ n ih =>
      obtain ⟨k, leads, agrees⟩ := ih (by omega)
      by_cases same : k.toNat % 2 ^ (n + 4) = g.toNat % 2 ^ (n + 4)
      · exact ⟨k, leads, same⟩
      have odd' : k.toNat % 2 = 1 := by
        have two : 2 ∣ 2 ^ (n + 3) := dvd_pow_self 2 (by omega)
        rw [← Nat.mod_mod_of_dvd _ two, agrees, Nat.mod_mod_of_dvd _ two, odd]
      refine ⟨_, leads.trans (.times (2 ^ (n + 1))), ?_⟩
      rw [times_mod three odd' (by omega)]
      have double : 2 ^ (n + 4) = 2 * 2 ^ (n + 3) := by ring
      rw [double] at same ⊢
      exact apart_mod agrees same

/-- Every word becomes every other one. -/
theorem leads (three : prime.toNat % 8 = 3) (h g : UInt64) : Leads prime h g := by
  have to_odd : ∀ {g : UInt64}, g.toNat % 2 = 1 → Leads prime h g := by
    intro g odd
    obtain ⟨k, leads, agrees⟩ := @Leads.agreeing prime h g three odd 61 le_rfl
    rw [Nat.mod_eq_of_lt k.toNat_lt, Nat.mod_eq_of_lt g.toNat_lt, UInt64.toNat_inj] at agrees
    rwa [← agrees]
  rcases Nat.mod_two_eq_zero_or_one g.toNat with even | odd
  · have next : (g ^^^ 1).toNat % 2 = 1 := by
      rw [UInt64.toNat_xor, Nat.xor_mod_two_eq_one]
      simp [even]
    have back := (to_odd next).trans (Leads.xor three (show (1 : UInt64).toNat < 8 by decide))
    rwa [UInt64.xor_assoc, UInt64.xor_self, UInt64.xor_zero] at back
  · exact to_odd odd

end Khor.Mixing
