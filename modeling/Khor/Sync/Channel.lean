/-
Module: Khor.Sync.Channel
Purpose: The chat channel of a machine: its own name where a channel may have it, otherwise the name cleaned, with a
  fingerprint of the original behind it. What comes out is a channel's name that stays as it is. A machine may have a
  name that ends as cleaned ones do, and these are the names that two machines may meet in: for each of them there is
  a machine whose name is cleaned to it.
Trusted boundary: names as lists of characters; white space as Unicode has it
Main exports: validChannel, fingerprint, channel_valid, channel_again, channel_apart
-/
import Khor.Lib.Decimal
import Khor.Lib.Mixing

namespace Khor.Chat

/-- The characters of a channel's name. -/
def allowed (c : Char) : Bool := c.isAlphanum || c == '_' || c == '-' || c == '.'

/-- How many bytes a text takes. -/
def byteLength (text : Text) : Nat := (text.map Char.utf8Size).sum

def validChannel (name : Text) : Bool :=
  decide (name ≠ [] ∧ byteLength name ≤ 128 ∧ name ≠ ['.'] ∧ name ≠ ['.', '.']) && name.all allowed

/-- A text written backwards, without the `.local`s it ends in. -/
def dropLocal : Text → Text
  | 'l' :: 'a' :: 'c' :: 'o' :: 'l' :: '.' :: rest => dropLocal rest
  | text => text

/-- The machine's name as it is read: no white space around it, no `.local` behind. -/
def localName (name : Text) : Text := (dropLocal (trim name).reverse).reverse

def FNV_OFFSET : UInt64 := 0xcbf29ce484222325

def FNV_PRIME : UInt64 := 0x100000001b3

def hexDigits : Text :=
  ['0', '1', '2', '3', '4', '5', '6', '7', '8', '9', 'a', 'b', 'c', 'd', 'e', 'f']

/-- Eight hexadecimal digits. -/
def hex8 (n : UInt32) : Text :=
  [7, 6, 5, 4, 3, 2, 1, 0].map fun place => hexDigits.getD (n.toNat / 16 ^ place % 16) '0'

/-- FNV-1a of the text's bytes, its two halves laid over each other. -/
def fingerprint (s : Text) : Text :=
  let h := (s.flatMap String.utf8EncodeChar).foldl (fun h b => (h ^^^ b.toUInt64) * FNV_PRIME) FNV_OFFSET
  hex8 (h ^^^ (h >>> 32)).toUInt32

/-- One more character of a name being cleaned. -/
def push (cleaned : Text) (c : Char) : Text :=
  if allowed c then cleaned ++ [c]
  else if cleaned.getLast? = some '-' then cleaned
  else cleaned ++ ['-']

/-- What a name neither starts nor ends with. -/
def isEdge (c : Char) : Bool := c == '-' || c == '.'

def stemOf (name : Text) : Text :=
  let cleaned := ((name.foldl push []).dropWhile isEdge).rdropWhile isEdge
  (cleaned.take 40).rdropWhile isEdge

/-- The channel name of a machine; `none` when nothing usable remains. -/
def channelOfMachine (machine : Text) : Option Text :=
  let name := localName machine
  if name = [] then none
  else if validChannel name then some name
  else
    let stem := stemOf name
    let out := (if stem = [] then ['m'] else stem) ++ '-' :: fingerprint name
    if validChannel out then some out else none

example : channelOfMachine ['张', '三', '.', 'l', 'o', 'c', 'a', 'l'] =
    some ['m', '-', '8', 'a', '9', 'b', '9', 'b', '1', 'e'] := by decide

/-- A machine whose name is its channel. -/
def Clean (machine : Text) : Prop := validChannel (localName machine) = true

/-- A machine whose name has to be cleaned. -/
def Dirty (machine : Text) : Prop := localName machine ≠ [] ∧ validChannel (localName machine) = false

variable {machine text name : Text} {c : Char}

theorem channel_clean (clean : Clean machine) : channelOfMachine machine = some (localName machine) := by
  have named : localName machine ≠ [] := by
    intro empty
    rw [Clean, empty] at clean
    exact absurd clean (by decide)
  unfold channelOfMachine
  rw [if_neg named, if_pos (show validChannel (localName machine) = true from clean)]

theorem allowed_code (fine : allowed c = true) :
    (48 ≤ c.toNat ∧ c.toNat ≤ 57) ∨ (65 ≤ c.toNat ∧ c.toNat ≤ 90) ∨ (97 ≤ c.toNat ∧ c.toNat ≤ 122) ∨
      c.toNat = 95 ∨ c.toNat = 45 ∨ c.toNat = 46 := by
  simp only [allowed, Bool.or_eq_true, beq_iff_eq, Char.isAlphanum, Char.isAlpha, Char.isUpper, Char.isLower,
    Char.isDigit, Bool.and_eq_true, decide_eq_true_eq] at fine
  rcases fine with ((((upper | lower) | digit) | rfl) | rfl) | rfl
  · exact .inr (.inl ⟨upper.1, upper.2⟩)
  · exact .inr (.inr (.inl ⟨lower.1, lower.2⟩))
  · exact .inl ⟨digit.1, digit.2⟩
  · decide
  · decide
  · decide

theorem allowed_not_space (fine : allowed c = true) : isSpace c = false := by
  have code := allowed_code fine
  by_contra space
  simp only [isSpace, Bool.not_eq_false, Bool.or_eq_true, Bool.and_eq_true, beq_iff_eq, decide_eq_true_eq] at space
  omega

theorem allowed_size (fine : allowed c = true) : c.utf8Size = 1 := by
  have code := allowed_code fine
  rw [Char.utf8Size_eq_one_iff, UInt32.le_iff_toNat_le]
  change c.toNat ≤ 127
  omega

theorem byteLength_allowed (fine : text.all allowed = true) : byteLength text = text.length := by
  unfold byteLength
  induction text with
  | nil => rfl
  | cons c text ih =>
      obtain ⟨first, rest⟩ := Bool.and_eq_true_iff.mp (by simpa using fine : (allowed c && text.all allowed) = true)
      rw [List.map_cons, List.sum_cons, allowed_size first, ih rest, List.length_cons]
      omega

theorem validChannel_iff : validChannel name = true ↔
      name.all allowed = true ∧ name ≠ [] ∧ name.length ≤ 128 ∧ name ≠ ['.'] ∧ name ≠ ['.', '.'] := by
  unfold validChannel
  rw [Bool.and_eq_true, decide_eq_true_eq]
  refine ⟨fun both => ⟨both.2, ?_⟩, fun both => ⟨?_, both.1⟩⟩
  · rw [← byteLength_allowed both.2]
    exact both.1
  · rw [byteLength_allowed both.1]
    exact both.2

theorem trim_allowed (fine : text.all allowed = true) : trim text = text := by
  have none_white : ∀ c ∈ text, isSpace c = false := fun c there =>
    allowed_not_space (List.all_eq_true.mp fine c there)
  have front : text.dropWhile isSpace = text := by
    rw [List.dropWhile_eq_self_iff]
    intro nonempty
    rw [none_white _ (List.getElem_mem nonempty)]
    exact Bool.false_ne_true
  have back : text.reverse.dropWhile isSpace = text.reverse := by
    rw [List.dropWhile_eq_self_iff]
    intro nonempty
    rw [none_white _ (List.mem_reverse.mp (List.getElem_mem nonempty))]
    exact Bool.false_ne_true
  rw [trim, front, back, List.reverse_reverse]

theorem dropLocal_dropLocal (text : Text) : dropLocal (dropLocal text) = dropLocal text := by
  induction text using dropLocal.induct with
  | case1 rest ih => simpa only [dropLocal] using ih
  | case2 text other =>
      have stays : dropLocal text = text := dropLocal.eq_2 text other
      rw [stays, stays]

/-- A name read once reads the same, where a channel may have its characters. -/
theorem localName_localName (fine : (localName machine).all allowed = true) :
    localName (localName machine) = localName machine := by
  rw [localName.eq_1 (localName machine), trim_allowed fine]
  unfold localName
  rw [List.reverse_reverse, dropLocal_dropLocal]

theorem hex_allowed : ∀ c ∈ hexDigits, allowed c = true ∧ c ≠ 'l' := by
  have all : hexDigits.all (fun c => allowed c && c != 'l') = true := by decide
  intro c there
  simpa using List.all_eq_true.mp all c there

theorem hex8_hex {n : UInt32} (there : c ∈ hex8 n) : c ∈ hexDigits := by
  obtain ⟨place, _, rfl⟩ := List.mem_map.mp there
  have below : n.toNat / 16 ^ place % 16 < hexDigits.length := Nat.mod_lt _ (by decide)
  rw [List.getD_eq_getElem?_getD, List.getElem?_eq_getElem below]
  exact List.getElem_mem below

theorem fingerprint_hex {s : Text} (there : c ∈ fingerprint s) : c ∈ hexDigits :=
  hex8_hex there

theorem fingerprint_length (s : Text) : (fingerprint s).length = 8 := rfl

theorem fingerprint_allowed (s : Text) : (fingerprint s).all allowed = true := by
  rw [List.all_eq_true]
  intro c there
  exact (hex_allowed c (fingerprint_hex there)).1

theorem push_allowed {cleaned : Text} (fine : cleaned.all allowed = true) (c : Char) :
    (push cleaned c).all allowed = true := by
  unfold push
  split
  · rename_i good
    simp [fine, good]
  · split
    · exact fine
    · simp [fine, allowed]

theorem foldl_push_allowed (name : Text) {cleaned : Text} (fine : cleaned.all allowed = true) :
    (name.foldl push cleaned).all allowed = true := by
  induction name generalizing cleaned with
  | nil => exact fine
  | cons c name ih => exact ih (push_allowed fine c)

theorem stemOf_allowed (name : Text) : (stemOf name).all allowed = true := by
  have all := List.all_eq_true.mp (@foldl_push_allowed name [] rfl)
  rw [List.all_eq_true]
  intro c there
  have taken := List.mem_of_mem_take ((List.rdropWhile_prefix isEdge _).mem there)
  exact all c ((List.dropWhile_suffix isEdge).mem ((List.rdropWhile_prefix isEdge _).mem taken))

theorem stemOf_length (name : Text) : (stemOf name).length ≤ 40 := by
  have cut := (List.rdropWhile_prefix isEdge
    ((((name.foldl push []).dropWhile isEdge).rdropWhile isEdge).take 40)).length_le
  exact cut.trans (List.length_take_le _ _)

/-- The channel of a name that has to be cleaned. -/
def cleanedName (name : Text) : Text :=
  (if stemOf name = [] then ['m'] else stemOf name) ++ '-' :: fingerprint name

theorem cleanedName_valid (name : Text) : validChannel (cleanedName name) = true := by
  have tail : ('-' :: fingerprint name).all allowed = true := by
    simp [fingerprint_allowed name, allowed]
  rw [validChannel_iff]
  have size : (cleanedName name).length =
      (if stemOf name = [] then ['m'] else stemOf name).length + 9 := by
    simp [cleanedName, fingerprint_length]
  have short : (if stemOf name = [] then ['m'] else stemOf name).length ≤ 40 := by
    split
    · decide
    · exact stemOf_length name
  refine ⟨?_, ?_, by omega, ?_, ?_⟩
  · rw [cleanedName, List.all_append, tail, Bool.and_true]
    split
    · decide
    · exact stemOf_allowed name
  all_goals
    intro is
    rw [is] at size
    simp at size

theorem channel_dirty (dirty : Dirty machine) :
    channelOfMachine machine = some (cleanedName (localName machine)) := by
  have same : (if stemOf (localName machine) = [] then ['m'] else stemOf (localName machine)) ++
      '-' :: fingerprint (localName machine) = cleanedName (localName machine) := rfl
  unfold channelOfMachine
  rw [if_neg dirty.1, dirty.2]
  simp only [Bool.false_eq_true, if_false, same, cleanedName_valid, if_true]

theorem channel_none : channelOfMachine machine = none ↔ localName machine = [] := by
  refine ⟨fun nothing => ?_, fun empty => by simp [channelOfMachine, empty]⟩
  by_contra named
  cases clean : validChannel (localName machine) with
  | true => simp [channel_clean clean] at nothing
  | false => simp [channel_dirty ⟨named, clean⟩] at nothing

theorem channel_cases {c : Text} (is : channelOfMachine machine = some c) :
    (Clean machine ∧ c = localName machine) ∨ (Dirty machine ∧ c = cleanedName (localName machine)) := by
  have named : localName machine ≠ [] := fun empty => by
    rw [channel_none.mpr empty] at is
    cases is
  cases clean : validChannel (localName machine) with
  | true =>
      rw [channel_clean clean] at is
      exact .inl ⟨clean, (Option.some.inj is).symm⟩
  | false =>
      rw [channel_dirty ⟨named, clean⟩] at is
      exact .inr ⟨⟨named, clean⟩, (Option.some.inj is).symm⟩

theorem channel_valid {c : Text} (is : channelOfMachine machine = some c) : validChannel c = true := by
  rcases channel_cases is with ⟨clean, rfl⟩ | ⟨_, rfl⟩
  · exact clean
  · exact cleanedName_valid _

/-- What neither starts nor ends in white space, and ends in no `l`, is read as it stands. -/
theorem localName_whole (front : ∀ c ∈ name.head?, isSpace c = false)
    (back : ∀ c ∈ name.getLast?, isSpace c = false ∧ c ≠ 'l') : localName name = name := by
  have trimmed : trim name = name := by
    have starts : name.dropWhile isSpace = name := by
      cases name with
      | nil => rfl
      | cons c name => simp [front c rfl]
    rw [trim, starts]
    rw [← List.head?_reverse] at back
    cases turned : name.reverse with
    | nil => rw [List.reverse_eq_nil_iff.mp turned]; rfl
    | cons c rest =>
        rw [turned] at back
        rw [List.dropWhile_cons_of_neg (by simp [(back c rfl).1]), ← turned, List.reverse_reverse]
  rw [localName, trimmed]
  rw [← List.head?_reverse] at back
  cases turned : name.reverse with
  | nil => rw [List.reverse_eq_nil_iff.mp turned]; rfl
  | cons c rest =>
      rw [turned] at back
      rw [dropLocal.eq_2 _ (fun rest is => (back c rfl).2 (List.cons.inj is).1), ← turned, List.reverse_reverse]

/-- A fingerprint's last digit is no `l`: what ends in one ends in no `.local`. -/
theorem localName_cleaned (name : Text) : localName (cleanedName name) = cleanedName name := by
  have fine := List.all_eq_true.mp (validChannel_iff.mp (cleanedName_valid name)).1
  apply localName_whole
  · intro c first
    exact allowed_not_space (fine c (List.mem_of_mem_head? first))
  · intro c last
    refine ⟨allowed_not_space (fine c (List.mem_of_mem_getLast? last)), ?_⟩
    have some : fingerprint name ≠ [] := List.ne_nil_of_length_pos (by rw [fingerprint_length]; decide)
    rw [cleanedName, List.getLast?_append_of_ne_nil _ (by simp), List.getLast?_cons_of_ne_nil some] at last
    exact (hex_allowed c (fingerprint_hex (List.mem_of_mem_getLast? last))).2

theorem channel_again {c : Text} (is : channelOfMachine machine = some c) : channelOfMachine c = some c := by
  have valid := channel_valid is
  have stays : localName c = c := by
    rcases channel_cases is with ⟨clean, rfl⟩ | ⟨_, rfl⟩
    · exact localName_localName (validChannel_iff.mp valid).1
    · exact localName_cleaned _
  have clean : Clean c := by rw [Clean, stays]; exact valid
  rw [channel_clean clean, stays]

/-- A name that ends as a cleaned one does: a dash and eight hexadecimal digits, behind at most forty characters that
  neither start nor end with a dash or a dot. -/
def Tailed (name : Text) : Prop :=
  ∃ stem digits : Text, name = stem ++ '-' :: digits ∧ digits.length = 8 ∧ (∀ c ∈ digits, c ∈ hexDigits) ∧
    stem ≠ [] ∧ stem.length ≤ 40 ∧ (∀ c ∈ stem.head?, isEdge c = false) ∧ ∀ c ∈ stem.getLast?, isEdge c = false

theorem rdropWhile_last : ∀ c ∈ (text.rdropWhile isEdge).getLast?, isEdge c = false := by
  intro c last
  have front := List.head?_dropWhile_not isEdge text.reverse
  rw [List.rdropWhile, List.getLast?_reverse] at last
  rw [last] at front
  simpa using front

/-- What is cut off behind leaves the first character, if any is left. -/
theorem head_of_prefix {front : Text} (first : ∀ c ∈ text.head?, isEdge c = false) (starts : front <+: text) :
    ∀ c ∈ front.head?, isEdge c = false := by
  obtain ⟨back, rfl⟩ := starts
  cases front with
  | nil => simp
  | cons c front => simpa using first

theorem stemOf_ends (name : Text) :
    (∀ c ∈ (stemOf name).head?, isEdge c = false) ∧ ∀ c ∈ (stemOf name).getLast?, isEdge c = false := by
  refine ⟨?_, rdropWhile_last⟩
  have first : ∀ c ∈ ((name.foldl push []).dropWhile isEdge).head?, isEdge c = false := by
    intro c first
    have front := List.head?_dropWhile_not isEdge (name.foldl push [])
    rw [first] at front
    simpa using front
  exact head_of_prefix first
    ((List.rdropWhile_prefix isEdge _).trans ((List.take_prefix 40 _).trans (List.rdropWhile_prefix isEdge _)))

theorem cleanedName_tailed (name : Text) : Tailed (cleanedName name) := by
  refine ⟨_, fingerprint name, rfl, fingerprint_length name, fun c => fingerprint_hex, ?_⟩
  split
  · simp [isEdge]
  · rename_i some
    exact ⟨some, stemOf_length name, stemOf_ends name⟩

theorem control_byte {byte : UInt64} (low : byte.toNat < 8) :
    (Char.ofNat byte.toNat).toNat = byte.toNat ∧
      (String.utf8EncodeChar (Char.ofNat byte.toNat)).map UInt8.toUInt64 = [byte] := by
  have code : (Char.ofNat byte.toNat).toNat = byte.toNat := by
    rw [Char.toNat_ofNat, if_pos (.inl (by omega))]
  have single : (Char.ofNat byte.toNat).utf8Size = 1 := by
    rw [Char.utf8Size_eq_one_iff, UInt32.le_iff_toNat_le]
    change (Char.ofNat byte.toNat).toNat ≤ 127
    omega
  refine ⟨code, ?_⟩
  rw [String.utf8EncodeChar_eq_singleton single, List.map_singleton, List.cons.injEq, ← UInt64.toNat_inj]
  refine ⟨?_, rfl⟩
  rw [UInt8.toNat_toUInt64, UInt32.toNat_toUInt8]
  change (Char.ofNat byte.toNat).toNat % 256 = byte.toNat
  omega

/-- Characters a channel may not have take a hash to wherever it should go. -/
theorem hash_leads (h g : UInt64) : ∃ text : Text, (∀ c ∈ text, c.toNat < 8) ∧
    (text.flatMap String.utf8EncodeChar).foldl (fun h b => (h ^^^ b.toUInt64) * FNV_PRIME) h = g := by
  obtain ⟨bytes, low, leads⟩ := Mixing.leads (show FNV_PRIME.toNat % 8 = 3 by decide) h g
  refine ⟨bytes.map fun byte => Char.ofNat byte.toNat, ?_, ?_⟩
  · intro c there
    obtain ⟨byte, is, rfl⟩ := List.mem_map.mp there
    rw [(control_byte (low byte is)).1]
    exact low byte is
  · have taken : ((bytes.map fun byte => Char.ofNat byte.toNat).flatMap String.utf8EncodeChar).map UInt8.toUInt64 =
        bytes := by
      clear leads
      induction bytes with
      | nil => rfl
      | cons byte bytes ih =>
          rw [List.map_cons, List.flatMap_cons, List.map_append, (control_byte (low byte List.mem_cons_self)).2,
            ih fun other there => low other (.tail _ there), List.singleton_append]
    rw [← leads, ← taken, List.foldl_map, taken]
    rfl

theorem hexDigit_value (hex : c ∈ hexDigits) : ∃ d < 16, hexDigits.getD d '0' = c := by
  obtain ⟨d, below, rfl⟩ := List.mem_iff_getElem.mp hex
  exact ⟨d, below, by rw [List.getD_eq_getElem?_getD, List.getElem?_eq_getElem below, Option.getD_some]⟩

/-- Eight digits are some number's. -/
theorem hex8_onto {digits : Text} (eight : digits.length = 8) (hex : ∀ c ∈ digits, c ∈ hexDigits) :
    ∃ n : UInt32, hex8 n = digits := by
  obtain ⟨values, below, rfl⟩ : ∃ values : List Nat, (∀ d ∈ values, d < 16) ∧
      values.map (fun d => hexDigits.getD d '0') = digits := by
    clear eight
    induction digits with
    | nil => exact ⟨[], by simp, rfl⟩
    | cons c digits ih =>
        obtain ⟨d, small, rfl⟩ := hexDigit_value (hex c (.head _))
        obtain ⟨values, below, rfl⟩ := ih fun c there => hex c (.tail _ there)
        exact ⟨d :: values, by simpa using ⟨small, below⟩, rfl⟩
  rw [List.length_map] at eight
  obtain ⟨a, b, c, d, e, f, g, h, rfl⟩ : ∃ a b c d e f g h, values = [a, b, c, d, e, f, g, h] := by
    rcases values with _ | ⟨a, _ | ⟨b, _ | ⟨c, _ | ⟨d, _ | ⟨e, _ | ⟨f, _ | ⟨g, _ | ⟨h, _ | ⟨i, more⟩⟩⟩⟩⟩⟩⟩⟩⟩
    case cons.cons.cons.cons.cons.cons.cons.cons.nil => exact ⟨a, b, c, d, e, f, g, h, rfl⟩
    all_goals simp at eight
  simp only [List.mem_cons, List.not_mem_nil, or_false, forall_eq_or_imp, forall_eq] at below
  refine ⟨UInt32.ofNat (((((((a * 16 + b) * 16 + c) * 16 + d) * 16 + e) * 16 + f) * 16 + g) * 16 + h), ?_⟩
  have value : (UInt32.ofNat (((((((a * 16 + b) * 16 + c) * 16 + d) * 16 + e) * 16 + f) * 16 + g) * 16 + h)).toNat =
      ((((((a * 16 + b) * 16 + c) * 16 + d) * 16 + e) * 16 + f) * 16 + g) * 16 + h := by
    rw [UInt32.toNat_ofNat']
    omega
  simp only [hex8, value, List.map_cons, List.map_nil]
  congr <;> omega

theorem foldl_push_kept (fine : text.all allowed = true) (cleaned : Text) :
    text.foldl push cleaned = cleaned ++ text := by
  induction text generalizing cleaned with
  | nil => simp
  | cons c text ih =>
      obtain ⟨first, rest⟩ := Bool.and_eq_true_iff.mp (by simpa using fine : (allowed c && text.all allowed) = true)
      rw [List.foldl_cons, push, if_pos first, ih rest, List.append_assoc, List.singleton_append]

theorem foldl_push_dashed (none : ∀ c ∈ text, allowed c = false) (cleaned : Text) :
    text.foldl push (cleaned ++ ['-']) = cleaned ++ ['-'] := by
  induction text with
  | nil => rfl
  | cons c text ih =>
      have stays : push (cleaned ++ ['-']) c = cleaned ++ ['-'] := by simp [push, none c]
      rw [List.foldl_cons, stays, ih fun c there => none c (List.mem_cons_of_mem _ there)]

theorem control_plain (low : c.toNat < 8) : allowed c = false ∧ isSpace c = false ∧ c ≠ 'l' := by
  refine ⟨?_, ?_, ?_⟩
  · by_contra fine
    have code := allowed_code (Bool.eq_true_of_not_eq_false fine)
    omega
  · by_contra space
    simp only [isSpace, Bool.not_eq_false, Bool.or_eq_true, Bool.and_eq_true, beq_iff_eq, decide_eq_true_eq] at space
    omega
  · rintro rfl
    exact absurd low (by decide)

/-- A stem with characters behind it that a channel may not have. -/
theorem padded_reads {stem : Text} (fine : stem.all allowed = true) (some : stem ≠ []) (low : ∀ c ∈ text, c.toNat < 8) :
    localName (stem ++ '!' :: text) = stem ++ '!' :: text := by
  apply localName_whole
  · intro c first
    rw [List.head?_append_of_ne_nil _ some] at first
    exact allowed_not_space (List.all_eq_true.mp fine c (List.mem_of_mem_head? first))
  · intro c last
    rw [List.getLast?_append_of_ne_nil _ (by simp)] at last
    rcases List.mem_cons.mp (List.mem_of_mem_getLast? last) with rfl | there
    · decide
    · exact (control_plain (low c there)).2

theorem padded_stem {stem : Text} (fine : stem.all allowed = true) (some : stem ≠ []) (short : stem.length ≤ 40)
    (first : ∀ c ∈ stem.head?, isEdge c = false) (last : ∀ c ∈ stem.getLast?, isEdge c = false)
    (low : ∀ c ∈ text, c.toNat < 8) : stemOf (stem ++ '!' :: text) = stem := by
  have bare : stem.rdropWhile isEdge = stem := by
    rw [List.rdropWhile_eq_self_iff]
    intro some
    rw [last _ (List.getLast?_eq_some_getLast some)]
    exact Bool.false_ne_true
  have open_end : stem.getLast? ≠ Option.some '-' := fun is => absurd (last _ is) (by decide)
  have dashed : (stem ++ '!' :: text).foldl push [] = stem ++ ['-'] := by
    rw [List.foldl_append, foldl_push_kept fine, List.nil_append, List.foldl_cons]
    rw [show push stem '!' = stem ++ ['-'] by simp [push, open_end, allowed]]
    exact foldl_push_dashed (fun c there => (control_plain (low c there)).1) stem
  have front : (stem ++ ['-']).dropWhile isEdge = stem ++ ['-'] := by
    cases stem with
    | nil => exact absurd rfl some
    | cons c stem => simp [first c rfl]
  rw [stemOf, dashed, front, List.rdropWhile_concat_pos _ _ _ (by decide), bare, List.take_of_length_le short, bare]

/-- A clean name that ends as a cleaned one is some other machine's cleaned name. -/
theorem tailed_cleaned (fine : name.all allowed = true) (tailed : Tailed name) :
    ∃ y, Dirty y ∧ cleanedName (localName y) = name := by
  obtain ⟨stem, digits, rfl, eight, hex, some, short, first, last⟩ := tailed
  obtain ⟨n, rfl⟩ := hex8_onto eight hex
  obtain ⟨text, low, hash⟩ := hash_leads
    (((stem ++ ['!']).flatMap String.utf8EncodeChar).foldl (fun h b => (h ^^^ b.toUInt64) * FNV_PRIME) FNV_OFFSET)
    n.toUInt64
  rw [List.all_append, Bool.and_eq_true] at fine
  have reads := padded_reads fine.1 some low
  have print : fingerprint (stem ++ '!' :: text) = hex8 n := by
    rw [List.append_cons, fingerprint, List.flatMap_append, List.foldl_append, hash]
    have high : n.toUInt64 >>> 32 = 0 := by
      rw [← UInt64.toNat_inj, UInt64.toNat_shiftRight, UInt32.toNat_toUInt64]
      change n.toNat >>> 32 = 0
      rw [Nat.shiftRight_eq_div_pow, Nat.div_eq_of_lt n.toNat_lt]
    rw [high, UInt64.xor_zero, UInt32.toUInt32_toUInt64]
  refine ⟨stem ++ '!' :: text, ⟨by simp [reads], ?_⟩, ?_⟩
  · rw [reads]
    have bad : (stem ++ '!' :: text).all allowed = false := by simp [allowed]
    rw [validChannel, bad, Bool.and_false]
  · rw [reads, cleanedName, padded_stem fine.1 some short first last low, if_neg some, print]

/-- A machine's own channel is no cleaned one exactly where the machine's name does not end as cleaned names do. Every
  name's channel is valid, and its own channel again. -/
theorem channel_apart {x : Text} (clean : Clean x) :
    ((∀ y, Dirty y → channelOfMachine x ≠ channelOfMachine y) ↔ ¬ Tailed (localName x)) ∧
    (∀ name : Text, channelOfMachine name = none ↔ localName name = []) ∧
    ∀ name c : Text, channelOfMachine name = some c → validChannel c = true ∧ channelOfMachine c = some c := by
  refine ⟨⟨fun apart tailed => ?_, fun plain y dirty same => ?_⟩, fun name => channel_none,
    fun name c is => ⟨channel_valid is, channel_again is⟩⟩
  · obtain ⟨y, dirty, is⟩ := tailed_cleaned (validChannel_iff.mp clean).1 tailed
    refine apart y dirty ?_
    rw [channel_clean clean, channel_dirty dirty, is]
  · rw [channel_clean clean, channel_dirty dirty, Option.some.injEq] at same
    rw [same] at plain
    exact plain (cleanedName_tailed _)

/-- A machine named `ab` shares its channel with no machine whose name has to be cleaned. -/
theorem channel_apart_plain : channelOfMachine ['a', 'b'] = some ['a', 'b'] ∧
    ∀ y, Dirty y → channelOfMachine ['a', 'b'] ≠ channelOfMachine y := by
  have clean : Clean ['a', 'b'] := by
    unfold Clean
    decide
  refine ⟨by decide, (channel_apart clean).1.mpr ?_⟩
  rintro ⟨stem, digits, is, eight, _⟩
  have short : (localName ['a', 'b']).length = 2 := by decide
  rw [is, List.length_append, List.length_cons, eight] at short
  omega

/-- A machine truly named `a-b-e2bca18b` meets the one named `a b`. -/
theorem channel_shared :
    let x := ['a', '-', 'b', '-', 'e', '2', 'b', 'c', 'a', '1', '8', 'b']
    let y := ['a', ' ', 'b']
    Clean x ∧ Dirty y ∧ channelOfMachine x = channelOfMachine y := by
  unfold Clean Dirty
  decide

end Khor.Chat
