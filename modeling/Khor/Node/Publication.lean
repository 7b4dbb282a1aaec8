/-
Module: Khor.Node.Publication
Purpose: The transfer registry on disk: a generation, a length and a checksum in front of a body, published by writing the
  next image beside it and renaming. What a load makes of what it finds: nothing is left over, a torn publication is
  thrown away, a whole one is finished, and everything else is refused.
Trusted boundary: the checksum as a function to 32 bytes; owners, modes and links of a file as one flag; the gate is
  held, so nobody else writes
Main exports: Checksum, Dir, Recovery, decode_ok, publication_publishes
-/
import Khor.Lib.BigEndian
import Khor.Lib.Fallible

namespace Khor.Publication

abbrev Bytes := List UInt8

def MAX_IMAGE : Nat := 32 * 1024 * 1024

/-- `b"khor-d01"`. -/
def MAGIC : Bytes := [107, 104, 111, 114, 45, 100, 48, 49]

def HEADER : Nat := 8 + 8 + 8 + 32

structure Checksum where
  sum : Bytes → Bytes
  length : ∀ bytes, (sum bytes).length = 32

/-- What an image of this generation begins with. -/
def start (generation : Nat) : Bytes := MAGIC ++ toBe 8 generation

/-- A header up to its checksum. -/
def front (generation length : Nat) : Bytes := MAGIC ++ toBe 8 generation ++ toBe 8 length

section

variable (h : Checksum) (validate : Bytes → Except String Unit)

def header (generation : Nat) (body : Bytes) : Bytes :=
  front generation body.length ++ h.sum (front generation body.length ++ body)

def image (generation : Nat) (body : Bytes) : Bytes := header h generation body ++ body

/-- The eight bytes of a header from `start` on, as a number. -/
def number (bytes : Bytes) (start : Nat) : Nat := fromBe ((bytes.drop start).take 8)

def decode (bytes : Bytes) : Except String (Nat × Bytes) :=
  if bytes.length < HEADER ∨ bytes.take 8 ≠ MAGIC then .error "invalid transfer metadata header"
  else
    let generation := number bytes 8
    let length := number bytes 16
    if generation = 0 ∨ MAX_IMAGE < length ∨ bytes.length ≠ HEADER + length then
      .error "invalid transfer metadata length or generation"
    else
      let body := bytes.drop HEADER
      if h.sum (bytes.take 24 ++ body) ≠ (bytes.drop 24).take 32 then
        .error "transfer metadata checksum mismatch; preserve for reconciliation"
      else .ok (generation, body)

structure File where
  data : Bytes
  /-- An owner-only regular file with one name: what `check_file` lets pass. -/
  safe : Bool

/-- The directory beside its gate. -/
structure Dir where
  registry : Option File
  next : Option File
  /-- There is an entry of another name. -/
  unknown : Bool

/-- What stands under a name, unless it is no safe file. -/
def readOptional : Option File → Except String (Option Bytes)
  | none => .ok none
  | some f =>
      if f.safe = false then .error "unsafe transfer metadata file"
      else if MAX_IMAGE + HEADER < f.data.length then .error "transfer metadata file exceeds budget"
      else .ok (some f.data)

/-- Only recognized controls; unknown files are never touched. -/
def listed (dir : Dir) : Except String Unit :=
  if dir.unknown then .error "unrecognized transfer metadata file; reconciliation required"
  else if (dir.registry.all (·.safe)) && dir.next.all (·.safe) then .ok ()
  else .error "unsafe transfer metadata file"

/-- Whether a publication is shorter than it says; where its length is cut off itself, that is all there is. -/
def partly (bytes : Bytes) : Except String Bool :=
  if bytes.length < 24 then
    if 16 < bytes.length ∧ MAX_IMAGE < fromBe (bytes.drop 16 ++ List.replicate (24 - bytes.length) 0) then
      .error "invalid partial metadata length; preserve for reconciliation"
    else .ok true
  else if MAX_IMAGE < number bytes 16 then .error "metadata publication exceeds budget"
  else .ok (bytes.length < HEADER + number bytes 16)

/-- What is left of a publication after this generation: none where it is torn, else the next generation's body. -/
def publication (generation : Nat) (bytes : Bytes) : Except String (Option (Nat × Bytes)) :=
  if 2 ^ 64 ≤ generation + 1 then .error "metadata generation overflow"
  else
    let expected := generation + 1
    if bytes.take 16 ≠ (start expected).take bytes.length then
      .error "unrecognized metadata publication; preserve for reconciliation"
    else do
      let torn ← partly bytes
      if torn then .ok none
      else do
        let (nextGeneration, nextBody) ← decode h bytes
        if nextGeneration ≠ expected then .error "unexpected metadata generation"
        else do
          validate nextBody
          .ok (some (nextGeneration, nextBody))

/-- What stands in the registry: generation 0 where there is none. -/
def current (dir : Dir) : Except String (Nat × Option Bytes) := do
  let bytes ← readOptional dir.registry
  match bytes with
  | none => .ok (0, none)
  | some bytes => do
      let (generation, body) ← decode h bytes
      validate body
      .ok (generation, some body)

inductive Recovery where
  | keep
  | discard
  | publish

/-- `Journal::load` up to its one change of the files: what it will do, and what it will answer. -/
def load (dir : Dir) : Except String (Recovery × Nat × Option Bytes) := do
  listed dir
  let (generation, body) ← current h validate dir
  let next ← readOptional dir.next
  match next with
  | none => .ok (.keep, generation, body)
  | some bytes => do
      let left ← publication h validate generation bytes
      match left with
      | none => .ok (.discard, generation, body)
      | some (generation, body) => .ok (.publish, generation, some body)

/-- The unlink or the rename. -/
def perform (dir : Dir) : Recovery → Dir
  | .keep => dir
  | .discard => { dir with next := none }
  | .publish => { dir with registry := dir.next, next := none }

/-- A load that nothing interrupts. -/
def loaded (dir : Dir) : Dir × Except String (Nat × Option Bytes) :=
  match load h validate dir with
  | .error e => (dir, .error e)
  | .ok (recovery, generation, body) => (perform dir recovery, .ok (generation, body))

/-- The registry, read without the owner. -/
def peek (dir : Dir) : Except String (Option Bytes) := do
  listed dir
  let bytes ← readOptional dir.registry
  match bytes with
  | none => .ok none
  | some bytes => do
      let (_, body) ← decode h bytes
      .ok (some body)

end

/-! ### Images -/

@[simp] theorem front_length (generation length : Nat) : (front generation length).length = 24 := by
  simp only [front, List.length_append, toBe_length, MAGIC, List.length_cons, List.length_nil]

theorem header_length (h : Checksum) (generation : Nat) (body : Bytes) : (header h generation body).length = HEADER := by
  rw [header, List.length_append, front_length, h.length]
  rfl

theorem image_length (h : Checksum) (generation : Nat) (body : Bytes) :
    (image h generation body).length = HEADER + body.length := by
  rw [image, List.length_append, header_length]

theorem take_front (generation length : Nat) (rest : Bytes) :
    (front generation length ++ rest).take 8 = MAGIC ∧
      number (front generation length ++ rest) 8 = fromBe (toBe 8 generation) ∧
      number (front generation length ++ rest) 16 = fromBe (toBe 8 length) ∧
      (front generation length ++ rest).take 24 = front generation length ∧
      (front generation length ++ rest).drop 24 = rest := by
  have magic : MAGIC.length = 8 := rfl
  have sixteen : (MAGIC ++ toBe 8 generation).length = 16 := by rw [List.length_append, magic, toBe_length]
  have whole : front generation length ++ rest = MAGIC ++ (toBe 8 generation ++ (toBe 8 length ++ rest)) := by
    simp only [front, List.append_assoc]
  have whole' : front generation length ++ rest = (MAGIC ++ toBe 8 generation) ++ (toBe 8 length ++ rest) := by
    simp only [front, List.append_assoc]
  refine ⟨?_, ?_, ?_, List.take_left' (front_length _ _), List.drop_left' (front_length _ _)⟩
  · rw [whole]
    exact List.take_left' magic
  · rw [whole, number, slice_of_parts magic (toBe_length 8 _)]
  · rw [whole', number, slice_of_parts sixteen (toBe_length 8 _)]

variable {bytes rest : Bytes} {h : Checksum} {generation : Nat}

/-- Bytes that begin as a header are a header's front. -/
theorem front_of_fields (long : 24 ≤ bytes.length) (magic : bytes.take 8 = MAGIC) :
    bytes.take 24 = front (number bytes 8) (number bytes 16) := by
  have size (start : Nat) (inside : start + 8 ≤ bytes.length) : ((bytes.drop start).take 8).length = 8 := by
    rw [List.length_take, List.length_drop]
    omega
  have generation := (fromBe_spelled (size 8 (by omega))).2
  have length := (fromBe_spelled (size 16 (by omega))).2
  have split : bytes.take 24 = bytes.take 8 ++ ((bytes.drop 8).take 8 ++ (bytes.drop 16).take 8) := by
    rw [show 24 = 8 + (8 + 8) from rfl, List.take_add, List.take_add, List.drop_drop]
  rw [split, magic, front, number, number, generation, length, List.append_assoc]

/-- What decodes is the image of what it decodes to. -/
theorem decode_ok {body : Bytes} (small : generation < 2 ^ 64) : decode h bytes = .ok (generation, body) ↔
      generation ≠ 0 ∧ body.length ≤ MAX_IMAGE ∧ bytes = image h generation body := by
  constructor
  · intro run
    unfold decode at run
    split at run
    · cases run
    · rename_i framed
      obtain ⟨long, magic⟩ := not_or.mp framed
      rw [not_not] at magic
      rw [Nat.not_lt] at long
      dsimp only at run
      split at run
      · cases run
      · rename_i sized
        obtain ⟨some, sized⟩ := not_or.mp sized
        obtain ⟨fits, length⟩ := not_or.mp sized
        rw [not_not] at length
        split at run
        · cases run
        · rename_i summed
          rw [not_not] at summed
          cases run
          have start := front_of_fields (by rw [HEADER] at long; omega) magic
          have rest : (bytes.drop HEADER).length = number bytes 16 := by
            rw [List.length_drop, length]
            omega
          refine ⟨some, by rw [rest]; exact Nat.le_of_not_lt fits, ?_⟩
          have tail : (bytes.drop 24).take 32 ++ bytes.drop HEADER = bytes.drop 24 := slice_append bytes 24 32
          rw [image, header, rest, ← start, summed, List.append_assoc, tail, List.take_append_drop]
  · rintro ⟨some, fits, rfl⟩
    have whole : image h generation body =
        front generation body.length ++ (h.sum (front generation body.length ++ body) ++ body) := by
      rw [image, header, List.append_assoc]
    obtain ⟨magic, first, second, start, rest⟩ :=
      take_front generation body.length (h.sum (front generation body.length ++ body) ++ body)
    rw [← whole] at magic first second start rest
    have bound : body.length < 256 ^ 8 := by
      rw [MAX_IMAGE] at fits
      omega
    rw [fromBe_toBe 8 _ (by omega)] at first
    rw [fromBe_toBe 8 _ bound] at second
    have tail : (image h generation body).drop HEADER = body := List.drop_left' (header_length h generation body)
    have sum : ((image h generation body).drop 24).take 32 = h.sum (front generation body.length ++ body) := by
      rw [rest, List.take_left' (h.length _)]
    have framed : ¬ ((image h generation body).length < HEADER ∨ (image h generation body).take 8 ≠ MAGIC) := by
      rw [image_length, magic]
      rintro (short | other)
      · omega
      · exact other rfl
    have sized : ¬ (number (image h generation body) 8 = 0 ∨ MAX_IMAGE < number (image h generation body) 16 ∨
        (image h generation body).length ≠ HEADER + number (image h generation body) 16) := by
      rw [first, second, image_length]
      rintro (none | long | other)
      · exact some none
      · omega
      · exact other rfl
    rw [decode, if_neg framed]
    dsimp only
    rw [if_neg sized, tail, start, sum, if_neg (not_not_intro rfl), first]

/-! ### Torn publications -/

/-- A publication of this generation that is cut off before its end: some image's front, as far as it goes, and fewer
bytes than that front counts. -/
def Torn (generation : Nat) (bytes : Bytes) : Prop :=
  ∃ length rest, length ≤ MAX_IMAGE ∧ rest.length = 32 + length ∧ bytes <+: front generation length ++ rest ∧
    bytes.length < HEADER + length

theorem start_length (generation : Nat) : (start generation).length = 16 := by
  rw [start, List.length_append, toBe_length]
  rfl

theorem front_eq (generation length : Nat) : front generation length = start generation ++ toBe 8 length := rfl

theorem take_start (generation length : Nat) (rest : Bytes) :
    (front generation length ++ rest).take 16 = start generation := by
  rw [front_eq, List.append_assoc, List.take_left' (start_length generation)]

theorem starts_of_cut {length : Nat} (cut : bytes <+: front generation length ++ rest) :
    bytes.take 16 = (start generation).take bytes.length := by
  rw [List.prefix_iff_eq_take.mp cut, List.take_take, List.length_take, ← take_start generation length rest,
    List.take_take]
  congr 1
  have := cut.length_le
  omega

/-- A publication that has its length says how long the image is. -/
theorem number_of_cut {length : Nat} (long : 24 ≤ bytes.length) (bound : length < 256 ^ 8)
    (cut : bytes <+: front generation length ++ rest) : number bytes 16 = length := by
  have first : bytes.take 24 = front generation length := by
    rw [List.prefix_iff_eq_take.mp cut, List.take_take, Nat.min_eq_left long]
    exact List.take_left' (front_length _ _)
  have whole : bytes = front generation length ++ bytes.drop 24 := by rw [← first, List.take_append_drop]
  have fields := (take_front generation length (bytes.drop 24)).2.2.1
  rw [← whole, fromBe_toBe 8 length bound] at fields
  exact fields

/-- Where the length of a torn publication is cut off itself, the part that is there is no larger. -/
theorem partly_of_cut {length : Nat} (fits : length ≤ MAX_IMAGE) (cut : bytes <+: front generation length ++ rest) :
    partly bytes = .ok (decide (bytes.length < HEADER + length)) := by
  have bound : length < 256 ^ 8 := by
    rw [MAX_IMAGE] at fits
    omega
  have value : fromBe (toBe 8 length) = length := fromBe_toBe 8 length bound
  unfold partly
  by_cases short : bytes.length < 24
  · have room : bytes.length < HEADER + length := by rw [HEADER]; omega
    rw [if_pos short, decide_eq_true room, if_neg]
    rintro ⟨some, large⟩
    have tail : bytes.drop 16 = (toBe 8 length).take (bytes.length - 16) := by
      have whole : bytes = (start generation ++ (toBe 8 length ++ rest)).take bytes.length := by
        rw [← List.append_assoc, ← front_eq]
        exact List.prefix_iff_eq_take.mp cut
      have dropped := congrArg (List.drop 16) whole
      rw [List.drop_take, List.drop_left' (start_length generation), List.take_append_of_le_length] at dropped
      · exact dropped
      · rw [toBe_length]
        omega
    have rest' : (toBe 8 length).take (bytes.length - 16) ++ (toBe 8 length).drop (bytes.length - 16) =
        toBe 8 length := List.take_append_drop _ _
    have missing : ((toBe 8 length).drop (bytes.length - 16)).length = 24 - bytes.length := by
      rw [List.length_drop, toBe_length]
      omega
    have less := fromBe_zeros_le ((toBe 8 length).take (bytes.length - 16)) ((toBe 8 length).drop (bytes.length - 16))
    rw [rest', missing, ← tail, value] at less
    omega
  · have counted := number_of_cut (Nat.le_of_not_lt short) bound cut
    rw [if_neg short, counted, if_neg (Nat.not_lt.mpr fits)]

theorem partly_torn (starts : bytes.take 16 = (start generation).take bytes.length) (is : partly bytes = .ok true) :
    Torn generation bytes := by
  unfold partly at is
  split at is
  · rename_i short
    by_cases none : bytes.length ≤ 16
    · refine ⟨0, List.replicate 32 0, Nat.zero_le _, List.length_replicate, ?_, by rw [HEADER]; omega⟩
      rw [List.take_of_length_le none] at starts
      rw [starts, front_eq, List.append_assoc]
      exact (List.take_prefix _ _).trans (List.prefix_append _ _)
    · split at is
      · cases is
      · rename_i fits
        have large : fromBe (bytes.drop 16 ++ List.replicate (24 - bytes.length) 0) ≤ MAX_IMAGE :=
          Nat.le_of_not_lt fun more => fits ⟨Nat.lt_of_not_le none, more⟩
        have eight : (bytes.drop 16 ++ List.replicate (24 - bytes.length) 0).length = 8 := by
          rw [List.length_append, List.length_drop, List.length_replicate]
          omega
        refine ⟨_, List.replicate (32 + fromBe (bytes.drop 16 ++ List.replicate (24 - bytes.length) 0)) 0, large,
          List.length_replicate, ?_, by rw [HEADER]; omega⟩
        rw [List.take_of_length_le (show (start generation).length ≤ bytes.length by rw [start_length]; omega)] at starts
        rw [front_eq, (fromBe_spelled eight).2, ← starts, ← List.append_assoc (bytes.take 16), List.take_append_drop,
          List.append_assoc]
        exact List.prefix_append _ _
  · rename_i long
    split at is
    · cases is
    · rename_i fits
      have less : bytes.length < HEADER + number bytes 16 := of_decide_eq_true (Except.ok.inj is)
      have size : ((bytes.drop 16).take 8).length = 8 := by
        rw [List.length_take, List.length_drop]
        omega
      have missing : 32 + number bytes 16 - (bytes.drop 24).length = HEADER + number bytes 16 - bytes.length := by
        rw [List.length_drop, HEADER]
        omega
      refine ⟨number bytes 16, bytes.drop 24 ++ List.replicate (HEADER + number bytes 16 - bytes.length) 0,
        Nat.le_of_not_lt fits, ?_, ?_, less⟩
      · rw [List.length_append, List.length_drop, List.length_replicate]
        simp only [HEADER] at less ⊢
        omega
      · rw [List.take_of_length_le (show (start generation).length ≤ bytes.length by rw [start_length]; omega)] at starts
        have whole : front generation (number bytes 16) ++ bytes.drop 24 = bytes := by
          have rest : (bytes.drop 16).take 8 ++ bytes.drop 24 = bytes.drop 16 := slice_append bytes 16 8
          rw [front_eq, number, (fromBe_spelled size).2, ← starts, List.append_assoc, rest, List.take_append_drop]
        rw [← List.append_assoc, whole]
        exact List.prefix_append _ _

/-- A publication is thrown away exactly when it is torn. -/
theorem publication_discards {validate : Bytes → Except String Unit} :
    publication h validate generation bytes = .ok none ↔ generation + 1 < 2 ^ 64 ∧ Torn (generation + 1) bytes := by
  unfold publication
  constructor
  · intro is
    split at is
    · cases is
    · rename_i small
      dsimp only at is
      split at is
      · cases is
      · rename_i starts
        rw [not_not] at starts
        obtain ⟨torn, cut, is⟩ := bind_ok.mp is
        cases torn with
        | true => exact ⟨Nat.lt_of_not_le small, partly_torn starts cut⟩
        | false =>
            obtain ⟨⟨g, b⟩, -, is⟩ := bind_ok.mp is
            dsimp only at is
            split at is
            · cases is
            · obtain ⟨_, -, is⟩ := bind_ok.mp is
              cases is
  · rintro ⟨small, length, rest, fits, -, cut, less⟩
    have partial' := partly_of_cut fits cut
    rw [decide_eq_true less] at partial'
    rw [if_neg (Nat.not_le.mpr small)]
    dsimp only
    rw [if_neg (not_not_intro (starts_of_cut cut)), bind_of_ok _ partial']
    rfl

/-- And finished exactly when it is the whole image of an accepted body, of the next generation. -/
theorem publication_publishes {validate : Bytes → Except String Unit} {g : Nat} {body : Bytes} :
    publication h validate generation bytes = .ok (some (g, body)) ↔
      generation + 1 < 2 ^ 64 ∧ g = generation + 1 ∧ body.length ≤ MAX_IMAGE ∧ bytes = image h g body ∧
        validate body = .ok () := by
  unfold publication
  constructor
  · intro is
    split at is
    · cases is
    · rename_i small
      dsimp only at is
      split at is
      · cases is
      · obtain ⟨torn, -, is⟩ := bind_ok.mp is
        cases torn with
        | true => cases is
        | false =>
            obtain ⟨⟨g', b⟩, decoded, is⟩ := bind_ok.mp is
            dsimp only at is
            split at is
            · cases is
            · rename_i next
              rw [not_not] at next
              obtain ⟨_, valid, is⟩ := bind_ok.mp is
              cases is
              obtain ⟨-, fits, whole⟩ := (decode_ok (by omega)).mp decoded
              exact ⟨Nat.lt_of_not_le small, next, fits, whole, valid⟩
  · rintro ⟨small, rfl, fits, rfl, valid⟩
    have whole : image h (generation + 1) body = front (generation + 1) body.length ++
        (h.sum (front (generation + 1) body.length ++ body) ++ body) := by
      rw [image, header, List.append_assoc]
    have cut : image h (generation + 1) body <+: front (generation + 1) body.length ++
        (h.sum (front (generation + 1) body.length ++ body) ++ body) := whole ▸ List.prefix_refl _
    have all : partly (image h (generation + 1) body) = .ok false := by
      rw [partly_of_cut fits cut, image_length, decide_eq_false (Nat.lt_irrefl _)]
    have decoded : decode h (image h (generation + 1) body) = .ok (generation + 1, body) :=
      (decode_ok small).mpr ⟨Nat.succ_ne_zero _, fits, rfl⟩
    rw [if_neg (Nat.not_le.mpr small)]
    dsimp only
    rw [if_neg (not_not_intro (starts_of_cut cut)), bind_of_ok _ all]
    rw [if_neg Bool.false_ne_true, bind_of_ok _ decoded]
    dsimp only
    rw [if_neg (not_not_intro rfl), bind_of_ok _ valid]

/-! ### Loads -/

theorem decode_small {body : Bytes} (run : decode h bytes = .ok (generation, body)) : generation < 2 ^ 64 := by
  unfold decode at run
  split at run
  · cases run
  · dsimp only at run
    split at run
    · cases run
    · split at run
      · cases run
      · cases run
        have bound := fromBe_lt ((bytes.drop 8).take 8)
        have size : ((bytes.drop 8).take 8).length ≤ 8 := List.length_take_le 8 _
        calc number bytes 8 < 256 ^ ((bytes.drop 8).take 8).length := bound
          _ ≤ 256 ^ 8 := Nat.pow_le_pow_right (by omega) size
          _ = 2 ^ 64 := by norm_num

/-- What a registry may hold: nothing, or the image of an accepted body. -/
inductive Stands (h : Checksum) (validate : Bytes → Except String Unit) : Option File → Nat → Option Bytes → Prop where
  | none : Stands h validate none 0 none
  | body {generation : Nat} {body : Bytes} (positive : generation ≠ 0) (small : generation < 2 ^ 64)
      (fits : body.length ≤ MAX_IMAGE) (valid : validate body = .ok ()) :
      Stands h validate (some ⟨image h generation body, true⟩) generation (some body)

/-- What a load may find: nothing beside the registry, a torn publication after it, or a whole one. -/
inductive Finds (h : Checksum) (validate : Bytes → Except String Unit) (dir : Dir) :
    Recovery → Nat → Option Bytes → Prop where
  | alone {generation : Nat} {body : Option Bytes} (stands : Stands h validate dir.registry generation body)
      (alone : dir.next = none) : Finds h validate dir .keep generation body
  | torn {generation : Nat} {body : Option Bytes} {bytes : Bytes}
      (stands : Stands h validate dir.registry generation body) (small : generation + 1 < 2 ^ 64)
      (next : dir.next = some ⟨bytes, true⟩) (torn : Torn (generation + 1) bytes) :
      Finds h validate dir .discard generation body
  | whole {generation : Nat} {body : Option Bytes} {body' : Bytes}
      (stands : Stands h validate dir.registry generation body) (small : generation + 1 < 2 ^ 64)
      (next : dir.next = some ⟨image h (generation + 1) body', true⟩) (fits : body'.length ≤ MAX_IMAGE)
      (valid : validate body' = .ok ()) : Finds h validate dir .publish (generation + 1) (some body')

section

variable {h : Checksum} {validate : Bytes → Except String Unit} {dir : Dir}

theorem readOptional_ok {f : Option File} {bytes : Option Bytes} :
    readOptional f = .ok bytes ↔
      (f = none ∧ bytes = none) ∨
        ∃ data, f = some ⟨data, true⟩ ∧ data.length ≤ MAX_IMAGE + HEADER ∧ bytes = some data := by
  cases f with
  | none => simp [readOptional, eq_comm]
  | some f =>
      obtain ⟨data, safe⟩ := f
      cases safe with
      | false => simp [readOptional]
      | true =>
          by_cases long : MAX_IMAGE + HEADER < data.length
          · simp [readOptional, long]
          · simp [readOptional, long, eq_comm, Nat.le_of_not_lt long]

theorem listed_ok : listed dir = .ok () ↔
    dir.unknown = false ∧ dir.registry.all (·.safe) = true ∧ dir.next.all (·.safe) = true := by
  unfold listed
  cases dir.unknown <;> simp

/-- A published image can be read back whole. -/
theorem read_image {generation : Nat} {body : Bytes} (fits : body.length ≤ MAX_IMAGE) :
    readOptional (some ⟨image h generation body, true⟩) = .ok (some (image h generation body)) := by
  refine readOptional_ok.mpr (.inr ⟨_, rfl, ?_, rfl⟩)
  rw [image_length]
  omega

theorem current_ok {generation : Nat} {body : Option Bytes} :
    current h validate dir = .ok (generation, body) ↔ Stands h validate dir.registry generation body := by
  unfold current
  constructor
  · intro run
    obtain ⟨bytes, read, is⟩ := bind_ok.mp run
    obtain ⟨none, rfl⟩ | ⟨data, some, -, rfl⟩ := readOptional_ok.mp read
    · cases is
      rw [none]
      exact .none
    · obtain ⟨⟨g, b⟩, decoded, is⟩ := bind_ok.mp is
      obtain ⟨_, valid, is⟩ := bind_ok.mp is
      cases is
      have small := decode_small decoded
      obtain ⟨positive, fits, rfl⟩ := (decode_ok small).mp decoded
      rw [some]
      exact .body positive small fits valid
  · intro stands
    generalize dir.registry = registry at stands
    cases stands with
    | none => rfl
    | @body g b positive small fits valid =>
        have decoded := (decode_ok (h := h) small).mpr ⟨positive, fits, rfl⟩
        rw [bind_of_ok _ (read_image fits)]
        dsimp only
        rw [bind_of_ok _ decoded]
        dsimp only
        rw [bind_of_ok _ valid]

variable {body : Option Bytes}

theorem Stands.safe {registry : Option File} (stands : Stands h validate registry generation body) :
    registry.all (·.safe) = true := by
  cases stands <;> rfl

theorem Torn.length (torn : Torn generation bytes) : bytes.length ≤ MAX_IMAGE + HEADER := by
  obtain ⟨length, -, fits, -, -, less⟩ := torn
  omega

/-- A load answers exactly where it finds what it may find; everything else is refused. -/
theorem load_ok {recovery : Recovery} : load h validate dir = .ok (recovery, generation, body) ↔
      dir.unknown = false ∧ Finds h validate dir recovery generation body := by
  unfold load
  constructor
  · intro run
    obtain ⟨_, names, run⟩ := bind_ok.mp run
    obtain ⟨⟨g, b⟩, stands, run⟩ := bind_ok.mp run
    obtain ⟨next, read, run⟩ := bind_ok.mp run
    have known := (listed_ok.mp names).1
    have stands := current_ok.mp stands
    obtain ⟨none, rfl⟩ | ⟨data, some, -, rfl⟩ := readOptional_ok.mp read
    · cases run
      exact ⟨known, .alone stands none⟩
    · obtain ⟨left, published, is⟩ := bind_ok.mp run
      cases left with
      | none =>
          cases is
          obtain ⟨small, torn⟩ := publication_discards.mp published
          exact ⟨known, .torn stands small some torn⟩
      | some found =>
          obtain ⟨g', b'⟩ := found
          cases is
          obtain ⟨small, rfl, fits, rfl, valid⟩ := publication_publishes.mp published
          exact ⟨known, .whole stands small some fits valid⟩
  · rintro ⟨known, finds⟩
    cases finds with
    | alone stands nothing =>
        have names : listed dir = .ok () := listed_ok.mpr ⟨known, stands.safe, by rw [nothing]; rfl⟩
        have read : readOptional dir.next = .ok none := by rw [nothing]; rfl
        rw [bind_of_ok _ names, bind_of_ok _ (current_ok.mpr stands)]
        dsimp only
        rw [bind_of_ok _ read]
    | @torn _ _ bytes stands small next torn =>
        have names : listed dir = .ok () := listed_ok.mpr ⟨known, stands.safe, by rw [next]; rfl⟩
        have read : readOptional dir.next = .ok (some bytes) :=
          readOptional_ok.mpr (.inr ⟨bytes, next, torn.length, rfl⟩)
        rw [bind_of_ok _ names, bind_of_ok _ (current_ok.mpr stands)]
        dsimp only
        rw [bind_of_ok _ read]
        dsimp only
        rw [bind_of_ok _ (publication_discards.mpr ⟨small, torn⟩)]
    | @whole g _ body' stands small next fits valid =>
        have names : listed dir = .ok () := listed_ok.mpr ⟨known, stands.safe, by rw [next]; rfl⟩
        have long : (image h (g + 1) body').length ≤ MAX_IMAGE + HEADER := by
          rw [image_length]
          omega
        have read : readOptional dir.next = .ok (some (image h (g + 1) body')) :=
          readOptional_ok.mpr (.inr ⟨_, next, long, rfl⟩)
        rw [bind_of_ok _ names, bind_of_ok _ (current_ok.mpr stands)]
        dsimp only
        rw [bind_of_ok _ read]
        dsimp only
        rw [bind_of_ok _ (publication_publishes.mpr ⟨small, rfl, fits, rfl, valid⟩)]

/-- A look at the registry sees what stands there, whatever is beside it. -/
theorem peek_ok (known : dir.unknown = false) (stands : Stands h validate dir.registry generation body)
    (safe : dir.next.all (·.safe) = true) : peek h dir = .ok body := by
  have names : listed dir = .ok () := listed_ok.mpr ⟨known, stands.safe, safe⟩
  unfold peek
  rw [bind_of_ok _ names]
  generalize dir.registry = registry at stands
  cases stands with
  | none => rfl
  | @body g b positive small fits valid =>
      have decoded := (decode_ok (h := h) small).mpr ⟨positive, fits, rfl⟩
      rw [bind_of_ok _ (read_image fits)]
      dsimp only
      rw [bind_of_ok _ decoded]

/-- A refused load changes nothing. -/
theorem loaded_refused {e : String} (refused : load h validate dir = .error e) :
    loaded h validate dir = (dir, .error e) := by
  rw [loaded, refused]

theorem Stands.unique {registry : Option File} {g g' : Nat} {b b' : Option Bytes} (one : Stands h validate registry g b)
    (other : Stands h validate registry g' b') : g = g' ∧ b = b' := by
  have first := (@current_ok h validate ⟨registry, Option.none, false⟩ g b).mpr one
  rw [(@current_ok h validate ⟨registry, Option.none, false⟩ g' b').mpr other] at first
  cases first
  exact ⟨rfl, rfl⟩

/-- Kinds of directories that no run leaves: an unknown file, an over-long one, a registry that is no image, a
publication of another generation, a complete publication that is no image. -/
inductive Foreign (h : Checksum) (validate : Bytes → Except String Unit) (dir : Dir) : Prop where
  | unknown (is : dir.unknown = true)
  | long (f : File) (is : dir.registry = some f ∨ dir.next = some f) (long : MAX_IMAGE + HEADER < f.data.length)
  | registry (f : File) (is : dir.registry = some f)
      (none : ∀ g body, g ≠ 0 → body.length ≤ MAX_IMAGE → f.data ≠ image h g body)
  | generation (f : File) (is : dir.next = some f) {g : Nat} {body : Option Bytes}
      (stands : Stands h validate dir.registry g body)
      (other : f.data.take 16 ≠ (start (g + 1)).take f.data.length)
  | complete (f : File) (is : dir.next = some f) {g : Nat} {body : Option Bytes}
      (stands : Stands h validate dir.registry g body) (long : 24 ≤ f.data.length)
      (whole : HEADER + number f.data 16 ≤ f.data.length) (none : ∀ body, f.data ≠ image h (g + 1) body)

theorem Finds.stands {recovery : Recovery} (finds : Finds h validate dir recovery generation body) :
    ∃ g b, Stands h validate dir.registry g b := by
  cases finds with
  | alone stands | torn stands | whole stands => exact ⟨_, _, stands⟩

/-- What a load finds beside the registry, after the generation that stands there. -/
theorem Finds.next {recovery : Recovery} {generation : Nat} {body : Option Bytes}
    (finds : Finds h validate dir recovery generation body) {f : File} (is : dir.next = some f) {g : Nat}
    {b : Option Bytes} (stands : Stands h validate dir.registry g b) :
    Torn (g + 1) f.data ∨ ∃ body', f.data = image h (g + 1) body' ∧ body'.length ≤ MAX_IMAGE := by
  cases finds with
  | alone _ alone =>
      rw [is] at alone
      cases alone
  | torn stands' _ next torn =>
      obtain ⟨rfl, -⟩ := stands.unique stands'
      rw [is] at next
      cases next
      exact .inl torn
  | @whole _ _ body' stands' _ next fits _ =>
      obtain ⟨rfl, -⟩ := stands.unique stands'
      rw [is] at next
      cases next
      exact .inr ⟨body', rfl, fits⟩

theorem Foreign.refused (foreign : Foreign h validate dir) : ∃ e, loaded h validate dir = (dir, .error e) := by
  cases answer : load h validate dir with
  | error e => exact ⟨e, loaded_refused answer⟩
  | ok found =>
      obtain ⟨recovery, generation, body⟩ := found
      obtain ⟨known, finds⟩ := load_ok.mp answer
      exfalso
      cases foreign with
      | unknown is =>
          rw [known] at is
          cases is
      | long f is long =>
          obtain ⟨g, b, stands⟩ := finds.stands
          rcases is with is | is
          · rw [is] at stands
            cases stands with
            | body _ _ fits =>
                rw [image_length] at long
                omega
          · obtain torn | ⟨body', whole, fits⟩ := finds.next is stands
            · exact absurd torn.length (Nat.not_le.mpr long)
            · rw [whole, image_length] at long
              omega
      | registry f is none =>
          obtain ⟨g, b, stands⟩ := finds.stands
          rw [is] at stands
          cases stands with
          | body positive _ fits => exact none _ _ positive fits rfl
      | generation f is stands other =>
          obtain ⟨length, rest, -, -, cut, -⟩ | ⟨body', whole, -⟩ := finds.next is stands
          · exact other (starts_of_cut cut)
          · rw [whole, image, header, List.append_assoc] at other
            exact other (starts_of_cut (List.prefix_refl _))
      | complete f is stands long whole none =>
          obtain ⟨length, rest, fits, -, cut, less⟩ | ⟨body', image, -⟩ := finds.next is stands
          · rw [number_of_cut long (by rw [MAX_IMAGE] at fits; omega) cut] at whole
            omega
          · exact none body' image

end

end Khor.Publication
