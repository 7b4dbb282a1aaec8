/-
Module: Khor.Lib.BigEndian
Purpose: Numbers as a fixed number of bytes, the most significant or the least significant first, and runs of records
  of one length.
Trusted boundary: none
Main exports: toLe_inj, flatMap_inj, slice_of_parts, slice_append, fromBe_zeros_le
-/
import Mathlib

namespace Khor

/-- The lowest `w` bytes of a number. -/
def toBe : Nat → Nat → List UInt8
  | 0, _ => []
  | w + 1, n => toBe w (n / 256) ++ [UInt8.ofNat n]

def fromBe (bytes : List UInt8) : Nat := bytes.foldl (fun n b => n * 256 + b.toNat) 0

@[simp] theorem toBe_length (w n : Nat) : (toBe w n).length = w := by
  induction w generalizing n with
  | zero => rfl
  | succ w ih => rw [toBe, List.length_append, ih, List.length_singleton]

theorem fromBe_concat (bytes : List UInt8) (b : UInt8) : fromBe (bytes ++ [b]) = fromBe bytes * 256 + b.toNat := by
  rw [fromBe, List.foldl_append, List.foldl_cons, List.foldl_nil, fromBe]

/-- A number is read back from as many of its bytes as it has. -/
theorem fromBe_toBe (w : Nat) : ∀ n, n < 256 ^ w → fromBe (toBe w n) = n := by
  induction w with
  | zero =>
      intro n lt
      rw [Nat.pow_zero, Nat.lt_one_iff] at lt
      rw [lt, toBe, fromBe, List.foldl_nil]
  | succ w ih =>
      intro n lt
      have high : n / 256 < 256 ^ w := Nat.div_lt_of_lt_mul (by rw [Nat.pow_succ, Nat.mul_comm] at lt; exact lt)
      have low : (UInt8.ofNat n).toNat = n % 256 := UInt8.toNat_ofNat'
      rw [toBe, fromBe_concat, ih _ high, low]
      omega

theorem fromBe_lt (bytes : List UInt8) : fromBe bytes < 256 ^ bytes.length := by
  induction bytes using List.reverseRecOn with
  | nil => exact Nat.one_pos
  | append_singleton bytes b ih =>
      have low : b.toNat < 256 := UInt8.toNat_lt b
      rw [fromBe_concat, List.length_append, List.length_singleton, Nat.pow_succ]
      omega

/-- The bytes a number was read from are its bytes. -/
theorem toBe_fromBe (bytes : List UInt8) : toBe bytes.length (fromBe bytes) = bytes := by
  induction bytes using List.reverseRecOn with
  | nil => rfl
  | append_singleton bytes b ih =>
      have low : b.toNat < 256 := UInt8.toNat_lt b
      have high : (fromBe bytes * 256 + b.toNat) / 256 = fromBe bytes := by omega
      have same : UInt8.ofNat (fromBe bytes * 256 + b.toNat) = b := by
        apply UInt8.toNat_inj.mp
        rw [UInt8.toNat_ofNat']
        omega
      rw [fromBe_concat, List.length_append, List.length_singleton, toBe, high, ih, same]

variable {w : Nat} {α : Type}

/-- A number of `w` bytes below its bound, read from the bytes that spell it. -/
theorem fromBe_spelled {bytes : List UInt8} (len : bytes.length = w) :
    fromBe bytes < 256 ^ w ∧ toBe w (fromBe bytes) = bytes := by
  subst len
  exact ⟨fromBe_lt bytes, toBe_fromBe bytes⟩

/-- The same bytes, the least significant first. -/
def toLe : Nat → Nat → List UInt8
  | 0, _ => []
  | w + 1, n => UInt8.ofNat n :: toLe w (n / 256)

@[simp] theorem toLe_length (w n : Nat) : (toLe w n).length = w := by
  induction w generalizing n with
  | zero => rfl
  | succ w ih => rw [toLe, List.length_cons, ih]

theorem toLe_inj : ∀ {w n m : Nat}, n < 256 ^ w → m < 256 ^ w → toLe w n = toLe w m → n = m
  | 0, n, m, small, small', _ => by
      rw [Nat.pow_zero, Nat.lt_one_iff] at small small'
      rw [small, small']
  | w + 1, n, m, small, small', same => by
      obtain ⟨low, high⟩ := List.cons.inj same
      have digit := congrArg UInt8.toNat low
      rw [UInt8.toNat_ofNat', UInt8.toNat_ofNat'] at digit
      rw [Nat.pow_succ, Nat.mul_comm] at small small'
      have rest : n / 256 = m / 256 := toLe_inj (Nat.div_lt_of_lt_mul small) (Nat.div_lt_of_lt_mul small') high
      omega

/-- Records of one length, one after another, are read apart without a count. -/
theorem flatMap_inj {β : Type} {f : α → List β} (pos : 0 < w) (len : ∀ a, (f a).length = w)
    (inj : ∀ a b, f a = f b → a = b) : ∀ {l l' : List α}, l.flatMap f = l'.flatMap f → l = l'
  | [], [], _ => rfl
  | [], b :: l', same | a :: l, [], same => by
      have := congrArg List.length same
      rw [List.flatMap_nil, List.flatMap_cons, List.length_nil, List.length_append, len] at this
      omega
  | a :: l, b :: l', same => by
      rw [List.flatMap_cons, List.flatMap_cons] at same
      obtain ⟨first, rest⟩ := List.append_inj same (by rw [len, len])
      rw [inj a b first, flatMap_inj pos len inj rest]

theorem flatMap_length {β : Type} {f : α → List β} (len : ∀ a, (f a).length = w) (l : List α) :
    (l.flatMap f).length = l.length * w := by
  induction l with
  | nil => rw [List.flatMap_nil, List.length_nil, List.length_nil, Nat.zero_mul]
  | cons a l ih => rw [List.flatMap_cons, List.length_append, len, ih, List.length_cons, Nat.succ_mul, Nat.add_comm]

/-- A part of a text, where what stands before it and its own length are known. -/
theorem slice_of_parts {before part after : List α} {start len : Nat} (left : before.length = start)
    (size : part.length = len) : ((before ++ (part ++ after)).drop start).take len = part := by
  rw [List.drop_left' left, List.take_left' size]

/-- A part and what follows it are what stands from its start on. -/
theorem slice_append {α : Type} (bytes : List α) (start len : Nat) :
    (bytes.drop start).take len ++ bytes.drop (start + len) = bytes.drop start := by
  rw [← List.drop_drop, List.take_append_drop]

theorem fromBe_append (a b : List UInt8) : fromBe (a ++ b) = fromBe a * 256 ^ b.length + fromBe b := by
  induction b using List.reverseRecOn with
  | nil => rw [List.append_nil, List.length_nil, Nat.pow_zero, Nat.mul_one, fromBe, fromBe, List.foldl_nil, Nat.add_zero]
  | append_singleton b c ih =>
      rw [← List.append_assoc, fromBe_concat, fromBe_concat, ih, List.length_append, List.length_singleton,
        Nat.pow_succ]
      ring

/-- A number whose last bytes are missing is no larger, read with zeros in their place. -/
theorem fromBe_zeros_le (a b : List UInt8) : fromBe (a ++ List.replicate b.length 0) ≤ fromBe (a ++ b) := by
  have none : ∀ n, fromBe (List.replicate n (0 : UInt8)) = 0 := by
    intro n
    induction n with
    | zero => rfl
    | succ n ih => rw [List.replicate_succ', fromBe_concat, ih]; rfl
  rw [fromBe_append, fromBe_append, none, List.length_replicate]
  omega

end Khor
