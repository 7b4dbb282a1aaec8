/-
Module: Khor.Lib.Base64
Purpose: Base64 with the standard alphabet and canonical padding: four characters for three bytes, the
  last group filled up with padding, and a decoder that takes nothing else. What is encoded decodes to
  the same bytes, and the encoding never holds a character outside its alphabet.
Trusted boundary: none
Main exports: Base64.encode, Base64.decode, Base64.decode_encode, Base64.mem_encode
-/
import Khor.Lib.Decimal

namespace Khor.Base64

/-- The sixty-four symbols, in the order of their values. -/
def alphabet : Text :=
  ['A', 'B', 'C', 'D', 'E', 'F', 'G', 'H', 'I', 'J', 'K', 'L', 'M', 'N', 'O', 'P',
    'Q', 'R', 'S', 'T', 'U', 'V', 'W', 'X', 'Y', 'Z', 'a', 'b', 'c', 'd', 'e', 'f',
    'g', 'h', 'i', 'j', 'k', 'l', 'm', 'n', 'o', 'p', 'q', 'r', 's', 't', 'u', 'v',
    'w', 'x', 'y', 'z', '0', '1', '2', '3', '4', '5', '6', '7', '8', '9', '+', '/']

/-- The symbol of a value below sixty-four. -/
def symbol (n : Nat) : Char := alphabet.getD n '='

/-- The value of a symbol; the padding character has none. -/
def value (c : Char) : Option Nat := alphabet.idxOf? c

/-- The symbols of a 24-bit group. -/
def symbols (n : Nat) : Char × Char × Char × Char :=
  (symbol (n / 262144), symbol (n / 4096 % 64), symbol (n / 64 % 64), symbol (n % 64))

/-- Three bytes as a 24-bit group. -/
def group (a b c : UInt8) : Nat := a.toNat * 65536 + b.toNat * 256 + c.toNat

def encode : List UInt8 → Text
  | [] => []
  | [a] =>
      let (p, q, _, _) := symbols (group a 0 0)
      [p, q, '=', '=']
  | [a, b] =>
      let (p, q, r, _) := symbols (group a b 0)
      [p, q, r, '=']
  | a :: b :: c :: rest =>
      let (p, q, r, s) := symbols (group a b c)
      p :: q :: r :: s :: encode rest

/-- Decode whole groups. Padding stands only at the end, and the bits it leaves over must be zero. -/
def decode : Text → Option (List UInt8)
  | [] => some []
  | p :: q :: r :: s :: rest =>
      match value p, value q, value r, value s with
      | some p, some q, some r, some s =>
          let n := p * 262144 + q * 4096 + r * 64 + s
          (decode rest).map
            ([UInt8.ofNat (n / 65536), UInt8.ofNat (n / 256), UInt8.ofNat n] ++ ·)
      | some p, some q, some r, none =>
          let n := p * 262144 + q * 4096 + r * 64
          if s = '=' ∧ rest = [] ∧ n % 256 = 0 then
            some [UInt8.ofNat (n / 65536), UInt8.ofNat (n / 256)]
          else none
      | some p, some q, none, none =>
          let n := p * 262144 + q * 4096
          if r = '=' ∧ s = '=' ∧ rest = [] ∧ n % 65536 = 0 then some [UInt8.ofNat (n / 65536)]
          else none
      | _, _, _, _ => none
  | _ => none

private theorem alphabet_nodup : alphabet.Nodup := by
  have codes : (alphabet.map Char.toNat).Nodup := by decide +kernel
  exact List.Pairwise.of_map Char.toNat (fun _ _ differ same => differ (congrArg Char.toNat same)) codes

private theorem symbol_spec (n : Nat) (small : n < 64) : value (symbol n) = some n ∧ symbol n ∈ alphabet := by
  have is : symbol n = alphabet[n] := by
    rw [symbol, List.getD_eq_getElem?_getD, List.getElem?_eq_getElem small, Option.getD_some]
  rw [is]
  refine ⟨List.idxOf?_eq_some_iff.mpr ⟨small, rfl, fun j less same => ?_⟩, List.getElem_mem _⟩
  exact absurd ((List.getElem_inj alphabet_nodup).mp same) (Nat.ne_of_lt less)

private theorem value_pad : value '=' = none := by
  decide +kernel

theorem group_lt (a b c : UInt8) : group a b c < 16777216 := by
  have ha := a.toNat_lt
  have hb := b.toNat_lt
  have hc := c.toNat_lt
  unfold group
  omega

/-- The four symbols of a group read back as its four digits. -/
theorem value_symbols {n p q r s : Nat} (small : n < 16777216) (hp : p = n / 262144)
    (hq : q = n / 4096 % 64) (hr : r = n / 64 % 64) (hs : s = n % 64) :
    value (symbol p) = some p ∧ value (symbol q) = some q ∧ value (symbol r) = some r ∧
      value (symbol s) = some s ∧ p * 262144 + q * 4096 + r * 64 + s = n := by
  refine ⟨(symbol_spec p ?_).1, (symbol_spec q ?_).1, (symbol_spec r ?_).1, (symbol_spec s ?_).1, ?_⟩ <;> omega

private theorem ofNat_toNat_add (a : UInt8) (k : Nat) : UInt8.ofNat (a.toNat + 256 * k) = a := by
  apply UInt8.toNat_inj.mp
  have := a.toNat_lt
  simp only [UInt8.toNat_ofNat']
  omega

/-- The bytes of a group, read off it. -/
theorem bytes_group (a b c : UInt8) :
    UInt8.ofNat (group a b c / 65536) = a ∧ UInt8.ofNat (group a b c / 256) = b ∧
      UInt8.ofNat (group a b c) = c := by
  have ha := a.toNat_lt
  have hb := b.toNat_lt
  have hc := c.toNat_lt
  refine ⟨?_, ?_, ?_⟩
  · have high : group a b c / 65536 = a.toNat + 256 * 0 := by unfold group; omega
    rw [high, ofNat_toNat_add]
  · have middle : group a b c / 256 = b.toNat + 256 * a.toNat := by unfold group; omega
    rw [middle, ofNat_toNat_add]
  · have low : group a b c = c.toNat + 256 * (a.toNat * 256 + b.toNat) := by unfold group; omega
    rw [low, ofNat_toNat_add]

/-- A group of one byte leaves its last two symbols empty. -/
theorem group_one (a : UInt8) : group a 0 0 % 65536 = 0 ∧ group a 0 0 / 64 % 64 = 0 ∧ group a 0 0 % 64 = 0 := by
  have whole : group a 0 0 = a.toNat * 65536 := by simp [group]
  rw [whole]
  omega

/-- A group of two bytes leaves its last symbol empty. -/
theorem group_two (a b : UInt8) : group a b 0 % 256 = 0 ∧ group a b 0 % 64 = 0 := by
  have whole : group a b 0 = a.toNat * 65536 + b.toNat * 256 := by simp [group]
  rw [whole]
  omega

section Groups

variable {p q r s : Char} {p' q' r' s' : Nat}

section

variable (hp : value p = some p') (hq : value q = some q')
include hp hq

theorem decode_four (hr : value r = some r') (hs : value s = some s') (rest : Text) :
    decode (p :: q :: r :: s :: rest) =
      (decode rest).map
        ([UInt8.ofNat ((p' * 262144 + q' * 4096 + r' * 64 + s') / 65536),
          UInt8.ofNat ((p' * 262144 + q' * 4096 + r' * 64 + s') / 256),
          UInt8.ofNat (p' * 262144 + q' * 4096 + r' * 64 + s')] ++ ·) := by
  rw [decode, hp, hq, hr, hs]

theorem decode_three (hr : value r = some r') (whole : (p' * 262144 + q' * 4096 + r' * 64) % 256 = 0) :
    decode [p, q, r, '='] =
      some [UInt8.ofNat ((p' * 262144 + q' * 4096 + r' * 64) / 65536),
        UInt8.ofNat ((p' * 262144 + q' * 4096 + r' * 64) / 256)] := by
  rw [decode, hp, hq, hr, value_pad]
  exact if_pos ⟨rfl, rfl, whole⟩

theorem decode_two (whole : (p' * 262144 + q' * 4096) % 65536 = 0) :
    decode [p, q, '=', '='] = some [UInt8.ofNat ((p' * 262144 + q' * 4096) / 65536)] := by
  rw [decode, hp, hq, value_pad]
  exact if_pos ⟨rfl, rfl, rfl, whole⟩

end

end Groups

/-- What is encoded decodes to the same bytes. -/
theorem decode_encode (bytes : List UInt8) : decode (encode bytes) = some bytes := by
  fun_induction encode bytes with
  | case1 => rfl
  | case2 a p q r s heq =>
      obtain ⟨rfl, rfl, rfl, rfl⟩ := by simpa [symbols] using heq
      obtain ⟨hp, hq, -⟩ := value_symbols (group_lt a 0 0) rfl rfl rfl rfl
      obtain ⟨high, middle, low⟩ := group_one a
      have digits : group a 0 0 / 262144 * 262144 + group a 0 0 / 4096 % 64 * 4096 = group a 0 0 := by omega
      rw [decode_two hp hq (by rw [digits]; exact high), digits, (bytes_group a 0 0).1]
  | case3 a b p q r s heq =>
      obtain ⟨rfl, rfl, rfl, rfl⟩ := by simpa [symbols] using heq
      obtain ⟨hp, hq, hr, _, hn⟩ := value_symbols (group_lt a b 0) rfl rfl rfl rfl
      obtain ⟨high, low⟩ := group_two a b
      rw [low, Nat.add_zero] at hn
      obtain ⟨ha, hb, _⟩ := bytes_group a b 0
      rw [decode_three hp hq hr (by rw [hn]; exact high), hn, ha, hb]
  | case4 a b c rest p q r s heq ih =>
      obtain ⟨rfl, rfl, rfl, rfl⟩ := by simpa [symbols] using heq
      obtain ⟨hp, hq, hr, hs, hn⟩ := value_symbols (group_lt a b c) rfl rfl rfl rfl
      obtain ⟨ha, hb, hc⟩ := bytes_group a b c
      rw [decode_four hp hq hr hs, hn, ih, ha, hb, hc, Option.map_some]
      rfl

/-- Every character of an encoding is a symbol or padding. -/
theorem mem_encode {bytes : List UInt8} {c : Char} (h : c ∈ encode bytes) : c ∈ alphabet ∨ c = '=' := by
  have symbols_mem : ∀ {n p q r s}, n < 16777216 → symbols n = (p, q, r, s) →
      p ∈ alphabet ∧ q ∈ alphabet ∧ r ∈ alphabet ∧ s ∈ alphabet := by
    intro n p q r s small heq
    obtain ⟨rfl, rfl, rfl, rfl⟩ := by simpa [symbols] using heq
    refine ⟨(symbol_spec _ ?_).2, (symbol_spec _ ?_).2, (symbol_spec _ ?_).2, (symbol_spec _ ?_).2⟩ <;> omega
  fun_induction encode bytes with
  | case1 => cases h
  | case2 a p q r s heq =>
      obtain ⟨hp, hq, _, _⟩ := symbols_mem (group_lt a 0 0) heq
      simp only [List.mem_cons, List.not_mem_nil, or_false] at h
      rcases h with rfl | rfl | rfl | rfl <;> simp_all
  | case3 a b p q r s heq =>
      obtain ⟨hp, hq, hr, _⟩ := symbols_mem (group_lt a b 0) heq
      simp only [List.mem_cons, List.not_mem_nil, or_false] at h
      rcases h with rfl | rfl | rfl | rfl <;> simp_all
  | case4 a b c' rest p q r s heq ih =>
      obtain ⟨hp, hq, hr, hs⟩ := symbols_mem (group_lt a b c') heq
      simp only [List.mem_cons] at h
      rcases h with rfl | rfl | rfl | rfl | h
      · exact Or.inl hp
      · exact Or.inl hq
      · exact Or.inl hr
      · exact Or.inl hs
      · exact ih h

/-- Only nothing encodes to nothing. -/
theorem encode_eq_nil {bytes : List UInt8} : encode bytes = [] ↔ bytes = [] := by
  constructor
  · intro h
    have := decode_encode bytes
    rw [h] at this
    exact (Option.some.inj this).symm
  · rintro rfl
    rfl

end Khor.Base64
