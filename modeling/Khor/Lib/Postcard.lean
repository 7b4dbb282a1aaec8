/-
Module: Khor.Lib.Postcard
Purpose: A byte coding of structured values: numbers as varints of seven bits to a byte, fixed arrays as
  their bytes, sequences behind their length, options behind a tag, records as their fields in order.
  What is written of a value is read back, whatever bytes follow.
Trusted boundary: none
Main exports: Coding, Coding.Reads, varint, Coding.array, Coding.list
-/
import Mathlib

namespace Khor

/-- How values are written, and read back with the bytes that follow them. -/
structure Coding (α : Type) where
  put : α → List UInt8
  take : List UInt8 → Option (α × List UInt8)

namespace Coding

variable {α β : Type}

/-- What is written of a value is read back, whatever follows. -/
def Reads (c : Coding α) (a : α) : Prop :=
  ∀ rest, c.take (c.put a ++ rest) = some (a, rest)

/-- A value that must use up the bytes. -/
def takeAll (c : Coding α) (bytes : List UInt8) : Option α :=
  match c.take bytes with
  | some (a, []) => some a
  | _ => none

theorem takeAll_put {c : Coding α} {a : α} (h : c.Reads a) : c.takeAll (c.put a) = some a := by
  have read := h []
  rw [List.append_nil] at read
  rw [takeAll, read]

end Coding

/-! ### Numbers -/

/-- Seven bits to a byte, the lowest first, the high bit on every byte but the last. -/
def putVarint : Nat → Nat → List UInt8
  | 0, _ => []
  | size + 1, n =>
      if n < 128 then [UInt8.ofNat n]
      else UInt8.ofNat (n % 128 + 128) :: putVarint size (n / 128)

/-- Read at most `size` bytes of a varint. -/
def takeVarint : Nat → List UInt8 → Option (Nat × List UInt8)
  | 0, _ | _ + 1, [] => none
  | size + 1, b :: rest =>
      if b.toNat < 128 then some (b.toNat, rest)
      else
        match takeVarint size rest with
        | none => none
        | some (n, rest) => some (b.toNat - 128 + 128 * n, rest)

variable {n : Nat}

/-- The last byte of a varint. -/
theorem takeVarint_last (small : n < 128) (size : Nat) (rest : List UInt8) :
    takeVarint (size + 1) (putVarint (size + 1) n ++ rest) = some (n, rest) := by
  have byte : (UInt8.ofNat n).toNat = n := by simp; omega
  simp [putVarint, takeVarint, byte, small]

theorem takeVarint_putVarint {size : Nat} (fits : n < 128 ^ (size + 1)) (rest : List UInt8) :
    takeVarint (size + 1) (putVarint (size + 1) n ++ rest) = some (n, rest) := by
  induction size generalizing n with
  | zero => exact takeVarint_last fits 0 rest
  | succ size ih =>
      by_cases small : n < 128
      · exact takeVarint_last small (size + 1) rest
      · have byte : (UInt8.ofNat (n % 128 + 128)).toNat = n % 128 + 128 := by simp; omega
        have more : ¬ n % 128 + 128 < 128 := by omega
        have smaller : n / 128 < 128 ^ (size + 1) := by
          rw [Nat.div_lt_iff_lt_mul (by decide)]
          calc n < 128 ^ (size + 1 + 1) := fits
            _ = 128 ^ (size + 1) * 128 := Nat.pow_succ _ _
        rw [putVarint, if_neg small, List.cons_append, takeVarint, byte, if_neg more, ih smaller]
        simp only [Option.some.injEq, Prod.mk.injEq, and_true]
        omega

theorem putVarint_pos (size n : Nat) : 1 ≤ (putVarint (size + 1) n).length := by
  unfold putVarint
  split <;> simp

theorem putVarint_le (size n : Nat) : (putVarint size n).length ≤ size := by
  induction size generalizing n with
  | zero => exact Nat.le_refl 0
  | succ size ih =>
      unfold putVarint
      split
      · simp
      · simpa using ih (n / 128)

/-- A number below `2 ^ bits`, in at most `size` bytes. -/
def varint (bits size : Nat) : Coding Nat where
  put n := putVarint size n
  take bytes :=
    match takeVarint size bytes with
    | some (n, rest) => if n < 2 ^ bits then some (n, rest) else none
    | none => none

theorem varint_reads {bits size n : Nat} (wide : 2 ^ bits ≤ 128 ^ (size + 1)) (fits : n < 2 ^ bits) :
    (varint bits (size + 1)).Reads n := by
  intro rest
  simp [varint, takeVarint_putVarint (Nat.lt_of_lt_of_le fits wide), fits]

/-! ### Structured values -/

namespace Coding

variable {α β : Type}

/-- Read and written through another type; what `back` refuses is no value. -/
def map (c : Coding α) (forth : β → α) (back : α → Option β) : Coding β where
  put b := c.put (forth b)
  take bytes :=
    match c.take bytes with
    | none => none
    | some (a, rest) => (back a).map (·, rest)

variable {c : Coding α} {as : List α}

theorem map_reads {forth : β → α} {back : α → Option β} {b : β} (h : c.Reads (forth b))
    (inverse : back (forth b) = some b) : (c.map forth back).Reads b := by
  intro rest
  simp [map, h rest, inverse]

/-- One value after another. -/
def pair (c : Coding α) (d : Coding β) : Coding (α × β) where
  put p := c.put p.1 ++ d.put p.2
  take bytes :=
    match c.take bytes with
    | none => none
    | some (a, rest) =>
        match d.take rest with
        | none => none
        | some (b, rest) => some ((a, b), rest)

theorem pair_reads {d : Coding β} {p : α × β} (h : c.Reads p.1) (h' : d.Reads p.2) : (c.pair d).Reads p := by
  intro rest
  simp only [pair, List.append_assoc, h _, h' _]

/-- Nothing after a zero byte, a value after a one. -/
def option (c : Coding α) : Coding (Option α) where
  put
    | none => [0]
    | some a => 1 :: c.put a
  take
    | [] => none
    | tag :: rest =>
        if tag = 0 then some (none, rest)
        else if tag = 1 then (c.take rest).map fun p => (some p.1, p.2)
        else none

theorem option_reads {o : Option α} (h : ∀ a, o = some a → c.Reads a) : c.option.Reads o := by
  intro rest
  cases o with
  | none => simp [option]
  | some a => simp [option, h a rfl rest]

/-- Exactly `n` bytes. -/
def array (n : Nat) : Coding (Vector UInt8 n) where
  put v := v.toList
  take bytes :=
    if h : n ≤ bytes.length then
      some (⟨(bytes.take n).toArray, by simp [h]⟩, bytes.drop n)
    else none

theorem array_reads (v : Vector UInt8 n) : (array n).Reads v := by
  intro rest
  have bound : n ≤ (v.toList ++ rest).length := by simp
  have front : (v.toList ++ rest).take n = v.toList := List.take_left' (by simp)
  have back : (v.toList ++ rest).drop n = rest := List.drop_left' (by simp)
  simp only [array, bound, dif_pos, front, back, Option.some.injEq, Prod.mk.injEq, and_true]
  ext i
  simp

/-- One byte. -/
def byte : Coding UInt8 where
  put b := [b]
  take
    | [] => none
    | b :: rest => some (b, rest)

theorem byte_reads (b : UInt8) : byte.Reads b := fun _ => rfl

/-- `n` values, one after the other. -/
def takeMany (c : Coding α) : Nat → List UInt8 → Option (List α × List UInt8)
  | 0, bytes => some ([], bytes)
  | n + 1, bytes =>
      match c.take bytes with
      | none => none
      | some (a, rest) => (takeMany c n rest).map fun p => (a :: p.1, p.2)

theorem takeMany_put (h : ∀ a ∈ as, c.Reads a) (rest : List UInt8) :
    takeMany c as.length (as.flatMap c.put ++ rest) = some (as, rest) := by
  induction as with
  | nil => rfl
  | cons a as ih =>
      have first := h a (.head _)
      have others := ih fun a' ha' => h a' (.tail _ ha')
      simp only [List.length_cons, List.flatMap_cons, List.append_assoc, takeMany, first _, others,
        Option.map_some]

/-- A length, and as many values. -/
def list (c : Coding α) : Coding (List α) where
  put as := (varint 64 10).put as.length ++ as.flatMap c.put
  take bytes :=
    match (varint 64 10).take bytes with
    | none => none
    | some (n, rest) => c.takeMany n rest

theorem list_reads (short : as.length < 2 ^ 64) (h : ∀ a ∈ as, c.Reads a) : c.list.Reads as := by
  intro rest
  have length := @varint_reads 64 9 _ (by decide) short
  simp only [list, List.append_assoc, length _, takeMany_put h rest]

/-- Every value takes bytes, so that a list takes as many at least. -/
theorem length_le_list_put {k : Nat} (each : ∀ a ∈ as, k ≤ (c.put a).length) :
    k * as.length ≤ (c.list.put as).length := by
  have flat : k * as.length ≤ (as.flatMap c.put).length := by
    induction as with
    | nil => simp
    | cons a as ih =>
        have first := each a (.head _)
        have others := ih fun a' ha' => each a' (.tail _ ha')
        rw [List.flatMap_cons, List.length_append, List.length_cons, Nat.mul_succ]
        omega
  have whole : (c.list.put as).length =
      ((varint 64 10).put as.length).length + (as.flatMap c.put).length := List.length_append
  omega

/-- A list's length takes a byte at least. -/
theorem one_le_list_put (c : Coding α) (as : List α) : 1 ≤ (c.list.put as).length := by
  have length : 1 ≤ ((varint 64 10).put as.length).length := putVarint_pos 9 as.length
  have whole : (c.list.put as).length =
      ((varint 64 10).put as.length).length + (as.flatMap c.put).length := List.length_append
  omega

/-- What is written of a list holds what is written of each value. -/
theorem length_put_le_list_put {a : α} (mem : a ∈ as) : (c.put a).length ≤ (c.list.put as).length := by
  have flat : (c.put a).length ≤ (as.flatMap c.put).length :=
    (List.sublist_flatten_of_mem (List.mem_map_of_mem mem)).length_le
  have whole : (c.list.put as).length =
      ((varint 64 10).put as.length).length + (as.flatMap c.put).length := List.length_append
  omega

end Coding

end Khor
