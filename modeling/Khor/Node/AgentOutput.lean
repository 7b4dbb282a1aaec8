/-
Module: Khor.Node.AgentOutput
Purpose: What an agent says, shown without its key: a stream of pieces in which the key may be cut anywhere, and the record
  that keeps so much of it. A text is its bytes; an index out of range and a slice within a character are none.
Trusted boundary: none
Main exports: redact, TextStream, TextStream.push, redacted_in_pieces, recorded_within
-/
import Khor.Lib.Matching

namespace Khor.Node.AgentOutput

abbrev Bytes := List UInt8

def utf8 (s : List Char) : Bytes := s.flatMap String.utf8EncodeChar

def CAP : Nat := 128 * 1024

def redacted : Bytes := utf8 "[redacted]".toList

/-- The catalog's two languages. -/
inductive Lang where
  | zh
  | en

def consoleOutputCut : Lang → Bytes
  | .zh => utf8 "输出过长，已截取显示".toList
  | .en => utf8 "Output too large; showing an excerpt".toList

def isCharBoundary (s : Bytes) (i : Nat) : Bool :=
  i == 0 || (match s[i]? with
    | none => i == s.length
    | some b => b < 0x80 || 0xC0 ≤ b)

def slice (s : Bytes) (start stop : Nat) : Option Bytes :=
  if start ≤ stop ∧ isCharBoundary s start ∧ isCharBoundary s stop then some ((s.take stop).drop start) else none

/-- An empty key is nothing to replace. -/
def redact (text key : Bytes) : Bytes := if key.isEmpty then text else replace key redacted text

structure TextStream where
  key : Bytes
  prefixes : List Nat
  pending : Bytes

namespace TextStream

def new (key : Bytes) : Option TextStream := do some ⟨key, ← prefixTable key, []⟩

def fresh (s : TextStream) : TextStream := { s with pending := [] }

/-- One occurrence in the raw text, `done` being what is shown before it and where that ends. -/
def redactOne (key raw : Bytes) (done : Bytes × Nat) (at_ : Nat) : Option (Bytes × Nat) := do
  some (done.1 ++ (← slice raw done.2 at_) ++ redacted, at_ + key.length)

def push (s : TextStream) (text : Bytes) : Option (TextStream × Bytes) :=
  if s.key.isEmpty then some (s, text)
  else do
    let raw := s.pending ++ text
    let (display, after) ← (matchIndices s.key 0 0 raw).foldlM (redactOne s.key raw) ([], 0)
    let remainder ← slice raw after raw.length
    let matched ← remainder.foldlM (advance s.key s.prefixes) 0
    let emit := remainder.length - matched
    some ({ s with pending := ← slice remainder emit remainder.length }, display ++ (← slice remainder 0 emit))

def finish (s : TextStream) : TextStream × Bytes := ({ s with pending := [] }, s.pending)

end TextStream

/-- The last character boundary up to `cut`. -/
def floor (output : Bytes) : (cut : Nat) → Nat
  | 0 => 0
  | cut + 1 => if isCharBoundary output (cut + 1) then cut + 1 else floor output cut

def appendBounded (lang : Lang) (output text : Bytes) : Bytes × Bool :=
  if CAP ≤ output.length then (output, false)
  else
    let output := output ++ text
    if CAP < output.length then (output.take (floor output CAP) ++ 10 :: consoleOutputCut lang, false)
    else (output, output.length < CAP)

def TextStream.appendTo (lang : Lang) (s : TextStream) (output text : Bytes) : Option (TextStream × Bytes) :=
  if CAP ≤ output.length then some ({ s with pending := [] }, output)
  else do
    let (s, shown) ← s.push text
    some (s, (appendBounded lang output shown).1)

def TextStream.finishInto (lang : Lang) (s : TextStream) (output : Bytes) : TextStream × Bytes :=
  (s.finish.1, (appendBounded lang output s.finish.2).1)

/-! ### One piece after another -/

/-- A piece pushed, and what it shows put behind what was shown. -/
def showPiece (done : TextStream × Bytes) (text : Bytes) : Option (TextStream × Bytes) := do
  let (s, shown) ← done.1.push text
  some (s, done.2 ++ shown)

/-- A text that comes in pieces: the stream after it, and what was shown of it. -/
def pushed (key : Bytes) (pieces : List Bytes) : Option (TextStream × Bytes) := do
  pieces.foldlM showPiece (← TextStream.new key, [])

/-- What an execution's record keeps of it. -/
def recorded (lang : Lang) (key : Bytes) (pieces : List Bytes) : Option Bytes := do
  let (s, output) ← pieces.foldlM (fun done text => done.1.appendTo lang done.2 text) (← TextStream.new key, [])
  some (s.finishInto lang output).2

/-! ### Characters -/

def chars : Code Char UInt8 where
  word := String.utf8EncodeChar
  head b := b < 0x80 || 0xC0 ≤ b
  begins c := by
    fun_cases String.utf8EncodeChar c
    all_goals
      refine ⟨_, _, rfl, ?_, ?_⟩
      · simp [UInt8.lt_iff_toNat_lt, UInt8.le_iff_toNat_le]
        omega
      · simp [UInt8.lt_iff_toNat_lt, UInt8.le_iff_toNat_le]
        try omega
  apart {c d x y} is := by
    have same := congrArg List.toByteArray is
    rw [List.toByteArray_append, List.toByteArray_append] at same
    have := congrArg (ByteArray.utf8DecodeChar? · 0) same
    simpa [ByteArray.utf8DecodeChar?_utf8EncodeChar_append] using this

variable {s key output : Bytes}

theorem isCharBoundary_iff (written : chars.Written s) {i : Nat} : isCharBoundary s i = true ↔ chars.Cut s i := by
  rcases i with - | i
  · exact iff_of_true rfl (Code.Written.cut 0 (Nat.zero_le _) written)
  · rw [isCharBoundary, Code.Cut]
    rcases Nat.lt_trichotomy (i + 1) s.length with inside | here | past
    · simp [inside, inside.le, chars]
    · simp [here]
    · simp [Nat.ne_of_gt past, Nat.not_le_of_lt past, past.le]

theorem slice_cut (written : chars.Written s) {start stop : Nat} (le : start ≤ stop) (start_ : chars.Cut s start)
    (stop_ : chars.Cut s stop) :
    slice s start stop = some ((s.take stop).drop start) ∧ chars.Written ((s.take stop).drop start) :=
  ⟨by rw [slice, if_pos ⟨le, (isCharBoundary_iff written).mpr start_, (isCharBoundary_iff written).mpr stop_⟩],
    ((start_.take le).written (stop_.written written).1).2⟩

theorem cut_end : chars.Cut s s.length :=
  ⟨Nat.le_refl _, fun x there => by rw [List.getElem?_length] at there; cases there⟩

theorem written_redacted : chars.Written redacted := ⟨_, rfl⟩

/-! ### One push -/

/-- What a key has at its beginning cuts no character. -/
theorem cut_key (written : chars.Written key) {i m : Nat} (le : i ≤ s.length) (is : s.drop i = key.take m ++ more)
    (pos : 0 < (key.take m).length) : chars.Cut s i := by
  refine ⟨le, fun x there => ?_⟩
  rw [← Nat.add_zero i, ← List.getElem?_drop, is, List.getElem?_append_left pos, List.getElem?_take] at there
  split at there
  · exact (Code.Written.cut 0 (Nat.zero_le _) written).2 x there
  · cases there

section Push

variable {key : Bytes} (key_some : key ≠ []) (key_written : chars.Written key)

include key_some key_written

/-- The slices that a push shows stand between characters, and stay as they are whatever comes. -/
theorem redactOne_all {raw : Bytes} (raw_written : chars.Written raw) : ∀ {xs : Bytes} {after : Nat} (shown : Bytes),
    raw.drop after = xs → after ≤ raw.length → chars.Written xs →
    ∃ out a, (matchIndices key 0 after xs).foldlM (TextStream.redactOne key raw) (shown, after) = some (shown ++ out, a) ∧
      chars.Written out ∧ a ≤ raw.length ∧ chars.Written (raw.drop a) ∧ Free key (raw.drop a) ∧
      ∀ more, replace key redacted (xs ++ more) = out ++ replace key redacted (raw.drop a ++ more) := by
  intro xs
  induction h : xs.length using Nat.strong_induction_on generalizing xs with
  | h n ih =>
    intro after shown is le xs_written
    rcases free_or_first key xs with free | ⟨i, first⟩
    · rw [matchIndices_free free]
      refine ⟨[], after, by rw [List.append_nil]; rfl, ⟨[], rfl⟩, le, ?_, ?_, ?_⟩ <;> rw [is]
      · exact xs_written
      · exact free
      · exact fun more => rfl
    · have fits := first.fits key_some
      have pos := List.length_pos_of_ne_nil key_some
      have long : xs.length = raw.length - after := by rw [← is, List.length_drop]
      obtain ⟨rest, there⟩ := first.here
      have here : raw.drop (after + i) = key ++ rest := by rw [← List.drop_drop, is, there]
      have cut : chars.Cut raw (after + i) :=
        cut_key key_written (m := key.length) (by omega) (by rw [here, List.take_length]) (by rw [List.take_length]; exact pos)
      obtain ⟨sliced, written⟩ := slice_cut raw_written (Nat.le_add_right after i)
        (Code.Written.cut after le (is ▸ xs_written)) cut
      have behind : raw.drop (after + i + key.length) = rest := by rw [← List.drop_drop, here, List.drop_left]
      have same : xs.drop (i + key.length) = rest := by rw [← List.drop_drop, ← there, List.drop_left]
      rw [List.drop_take, Nat.add_sub_cancel_left, is] at sliced written
      obtain ⟨out, a, ran, out_written, all⟩ := ih rest.length (by rw [← same, List.length_drop]; omega) rfl
        (shown ++ xs.take i ++ redacted) behind (by omega) (key_written.rest (here ▸ (cut.written raw_written).2))
      refine ⟨xs.take i ++ redacted ++ out, a, ?_, (written.append written_redacted).append out_written, all.1, all.2.1,
        all.2.2.1, fun more => ?_⟩
      · rw [matchIndices_first key_some first, List.foldlM_cons, TextStream.redactOne, sliced, same]
        exact ran.trans (by simp only [List.append_assoc])
      · rw [replace_first key_some (first.append key_some more), List.take_append_of_le_length (by omega),
          List.drop_append_of_le_length fits, same, all.2.2.2]
        simp only [List.append_assoc]

/-- **One push**: what it shows stays shown whatever comes, and what it keeps back is less than the key. -/
theorem push_reads {s : TextStream} (s_key : s.key = key) (tells : ∀ q < key.length, Tells key s.prefixes q)
    {text : Bytes} (pending : chars.Written s.pending) (written : chars.Written text) :
    ∃ p d, s.push text = some ({ s with pending := p }, d) ∧ chars.Written p ∧ chars.Written d ∧ p <+: key ∧
      p.length < key.length ∧
      ∀ more, replace key redacted (s.pending ++ text ++ more) = d ++ replace key redacted (p ++ more) := by
  have raw_written := pending.append written
  obtain ⟨d, a, shows, d_written, le, behind, free, onward⟩ := redactOne_all key_some key_written raw_written
    [] List.drop_zero (Nat.zero_le _) raw_written
  obtain ⟨m, scanned, longest, short⟩ := scan_longest key_some tells free
  obtain ⟨whole_out, -⟩ := slice_cut raw_written le (Code.Written.cut a le behind) cut_end
  rw [List.take_length] at whole_out
  generalize rest_is : (s.pending ++ text).drop a = rest at *
  have most := longest.most
  obtain ⟨front, rfl⟩ := longest.ends
  have m_is : (key.take m).length = m := by rw [List.length_take]; omega
  have emit : (front ++ key.take m).length - m = front.length := by rw [List.length_append, m_is, Nat.add_sub_cancel]
  have cut : chars.Cut (front ++ key.take m) front.length := by
    by_cases none_ : m = 0
    · have all : (front ++ key.take m).length = front.length := by rw [List.length_append, m_is, none_]; rfl
      exact all ▸ cut_end
    · exact cut_key key_written (m := m) (by rw [List.length_append]; exact Nat.le_add_right _ _)
        (show _ = key.take m ++ [] by rw [List.drop_left, List.append_nil]) (by omega)
  obtain ⟨cut_off, off_written⟩ := slice_cut behind cut.1 cut cut_end
  obtain ⟨cut_out, out_written⟩ := slice_cut behind (Nat.zero_le _) (Code.Written.cut 0 (Nat.zero_le _) behind) cut
  rw [List.take_length, List.drop_left] at cut_off off_written
  rw [List.drop_zero, List.take_left] at cut_out out_written
  refine ⟨key.take m, d ++ front, ?_, off_written, d_written.append out_written, List.take_prefix _ _, by omega, ?_⟩
  · rw [TextStream.push, s_key, if_neg (by simpa using key_some)]
    simp only [shows, List.nil_append, Option.bind_eq_bind, Option.bind_some, whole_out, scanned, emit, cut_off, cut_out]
  · intro more
    rw [onward, List.append_assoc, replace_hold key_some, List.append_assoc]
    -- an occurrence that began before would stand whole in the text or leave more of the key at its end
    intro j before occurs
    rw [← List.append_assoc, List.drop_append_of_le_length (by rw [List.length_append]; omega)] at occurs
    by_cases whole : key.length ≤ (front ++ key.take m).length - j
    · exact free.append_drop whole occurs
    · have part : (front ++ key.take m).drop j <+: key :=
        List.prefix_of_prefix_length_le (List.prefix_append _ _) occurs (by rw [List.length_drop]; omega)
      have less := most _ part.length_le (List.prefix_iff_eq_take.mp part ▸ List.drop_suffix _ _)
      rw [List.length_drop] at less
      omega

end Push

/-! ### Streams -/

/-- What a stream shows of a text that goes on. -/
structure Shows (key whole : Bytes) (s : TextStream) (shown : Bytes) : Prop where
  key_is : s.key = key
  tells : ∀ q < key.length, Tells key s.prefixes q
  pending : chars.Written s.pending
  written : chars.Written shown
  part : s.pending <+: key
  short : key ≠ [] → s.pending.length < key.length
  onward : ∀ more, redact (whole ++ more) key = shown ++ redact (s.pending ++ more) key

theorem redact_some (key_some : key ≠ []) (text : Bytes) : redact text key = replace key redacted text := by
  rw [redact, if_neg (by simpa using key_some)]

theorem Shows.new (key : Bytes) : ∃ s, TextStream.new key = some s ∧ Shows key [] s [] := by
  obtain ⟨table, made, tells⟩ := prefixTable_longest key
  refine ⟨⟨key, table, []⟩, by rw [TextStream.new, made]; rfl, rfl, tells, ⟨[], rfl⟩, ⟨[], rfl⟩, List.nil_prefix, ?_, ?_⟩
  · exact List.length_pos_of_ne_nil
  · exact fun more => rfl

section Shown

variable {key whole shown text : Bytes} {s : TextStream} (h : Shows key whole s shown)

include h

theorem Shows.push (key_written : chars.Written key) (text_written : chars.Written text) :
    ∃ s' out, s.push text = some (s', out) ∧ Shows key (whole ++ text) s' (shown ++ out) := by
  by_cases none_ : key = []
  · have kept : s.pending = [] := List.prefix_nil.mp (none_ ▸ h.part)
    refine ⟨s, text, by rw [TextStream.push, h.key_is, if_pos (by simp [none_])],
      { h with written := h.written.append text_written, onward := fun more => ?_ }⟩
    have onward := h.onward (text ++ more)
    simp only [kept, redact, none_, List.isEmpty_nil, if_true, List.nil_append, List.append_assoc] at onward ⊢
    exact onward
  · obtain ⟨p, out, is, p_written, out_written, part, short, onward⟩ :=
      push_reads none_ key_written h.key_is h.tells h.pending text_written
    refine ⟨_, out, is, h.key_is, h.tells, p_written, h.written.append out_written, part, fun _ => short, fun more => ?_⟩
    rw [List.append_assoc, h.onward, redact_some none_, redact_some none_, ← List.append_assoc, onward, List.append_assoc]

theorem Shows.finish : shown ++ s.finish.2 = redact whole key := by
  have onward := h.onward []
  rw [List.append_nil, List.append_nil] at onward
  rw [onward, TextStream.finish]
  by_cases none_ : key = []
  · rw [redact, if_pos (by simp [none_])]
  · rw [redact_some none_, replace_free]
    intro j occurs
    have := occurs.length_le
    have := h.short none_
    rw [List.length_drop] at *
    omega

theorem Shows.stays (more : Bytes) : shown <+: redact (whole ++ more) key := ⟨_, (h.onward more).symm⟩

end Shown

theorem utf8_append (s t : List Char) : utf8 (s ++ t) = utf8 s ++ utf8 t := List.flatMap_append

/-- What one piece keeps, any number of pieces keep. -/
theorem foldlM_keeps {σ : Type} {f : σ → Bytes → Option σ} {I : Bytes → σ → Prop}
    (one : ∀ {whole s}, I whole s → ∀ piece, ∃ s', f s (utf8 piece) = some s' ∧ I (whole ++ utf8 piece) s')
    (pieces : List (List Char)) : ∀ {whole : Bytes} {s : σ}, I whole s →
      ∃ s', (pieces.map utf8).foldlM f s = some s' ∧ I (whole ++ utf8 pieces.flatten) s' := by
  induction pieces with
  | nil => exact fun h => ⟨_, rfl, by rw [List.flatten_nil, utf8, List.flatMap_nil, List.append_nil]; exact h⟩
  | cons piece pieces ih =>
    intro whole s h
    obtain ⟨s', is, h'⟩ := one h piece
    obtain ⟨s'', ran, h''⟩ := ih h'
    refine ⟨s'', by rw [List.map_cons, List.foldlM_cons, is]; exact ran, ?_⟩
    rw [List.flatten_cons, utf8_append, ← List.append_assoc]
    exact h''

/-- **A key is left out wherever it is cut**: in whatever pieces a text comes, no piece panics, what is shown up to any of
them is not taken back by what comes, only a beginning of the key is kept back, and the whole is as one pass shows it. -/
theorem redacted_in_pieces (key : List Char) (pieces : List (List Char)) : ∃ s shown,
    pushed (utf8 key) (pieces.map utf8) = some (s, shown) ∧
      shown ++ s.finish.2 = redact (utf8 pieces.flatten) (utf8 key) ∧
      (∀ more, shown <+: redact (utf8 pieces.flatten ++ more) (utf8 key)) ∧
      s.pending <+: utf8 key ∧ (key ≠ [] → s.pending.length < (utf8 key).length) := by
  obtain ⟨new, made, begins⟩ := Shows.new (utf8 key)
  obtain ⟨⟨s, shown⟩, ran, h⟩ := foldlM_keeps (f := showPiece) (s := (new, []))
    (I := fun whole done => Shows (utf8 key) whole done.1 done.2) (fun h piece => by
      obtain ⟨s', out, is, h'⟩ := h.push ⟨key, rfl⟩ (show chars.Written (utf8 piece) from ⟨piece, rfl⟩)
      exact ⟨_, by rw [showPiece, is]; rfl, h'⟩) pieces begins
  refine ⟨s, shown, by rw [pushed, made]; exact ran, h.finish, h.stays, h.part, fun key_some => h.short ?_⟩
  obtain ⟨c, rest, rfl⟩ := List.exists_cons_of_ne_nil key_some
  exact List.append_ne_nil_of_left_ne_nil String.utf8EncodeChar_ne_nil _

/-! ### Records -/

theorem floor_spec (s : Bytes) : ∀ {n i : Nat}, i ≤ n → isCharBoundary s i = true →
    i ≤ floor s n ∧ floor s n ≤ n
  | 0, _, le, _ => ⟨le, Nat.le_refl 0⟩
  | n + 1, i, le, here => by
      rw [floor]
      split
      · exact ⟨le, Nat.le_refl _⟩
      · next not =>
        have ne : i ≠ n + 1 := by
          rintro rfl
          exact not here
        have := floor_spec s (by omega : i ≤ n) here
        omega

/-- A record of what was shown: all of it, or, with more than it takes, as many whole characters as fit and that it was cut. -/
inductive Held (lang : Lang) (shown output : Bytes) : Prop
  | whole (within : shown.length ≤ CAP) (is : output = shown)
  | cut (more : CAP < shown.length) (cut : Nat) (le : cut ≤ CAP) (close : CAP < cut + 4)
      (is : output = shown.take cut ++ 10 :: consoleOutputCut lang)

theorem appendBounded_held (lang : Lang) {text : Bytes} (open_ : output.length < CAP)
    (written : chars.Written (output ++ text)) : Held lang (output ++ text) (appendBounded lang output text).1 := by
  rw [appendBounded, if_neg (Nat.not_le_of_lt open_)]
  by_cases over_ : CAP < (output ++ text).length
  · obtain ⟨i, le, close, cut⟩ := written.near (w := 4) (by omega)
      (fun c => String.length_utf8EncodeChar c ▸ c.utf8Size_le_four) over_.le
    have floors := floor_spec _ le ((isCharBoundary_iff written).mpr cut)
    exact .cut over_ _ floors.2 (by omega) (by simp only [if_pos over_])
  · exact .whole (Nat.le_of_not_lt over_) (by simp only [if_neg over_])

theorem Held.full {lang : Lang} {shown : Bytes} (held : Held lang shown output) (long : CAP ≤ shown.length) :
    CAP ≤ output.length := by
  cases held with
  | whole _ is => exact is ▸ long
  | cut more cut _ close is =>
    have notice : 4 ≤ (consoleOutputCut lang).length := by cases lang <;> decide
    rw [is, List.length_append, List.length_take, List.length_cons]
    omega

/-- A record on the way: all that was shown, or as much as it takes. -/
def Keeps (lang : Lang) (key whole : Bytes) (s : TextStream) (output : Bytes) : Prop :=
  (Shows key whole s output ∧ output.length < CAP) ∨
    CAP ≤ output.length ∧ ∃ shown, CAP ≤ shown.length ∧ Held lang shown output ∧
      ∀ more, shown <+: redact (whole ++ more) key

theorem Keeps.push {lang : Lang} {whole text : Bytes} {s : TextStream} (keeps : Keeps lang key whole s output)
    (key_written : chars.Written key) (text_written : chars.Written text) :
    ∃ s' output', s.appendTo lang output text = some (s', output') ∧ Keeps lang key (whole ++ text) s' output' := by
  rcases keeps with ⟨h, open_⟩ | ⟨full, shown, long, held, stays⟩
  · obtain ⟨s', out, is, h'⟩ := h.push key_written text_written
    have held := appendBounded_held lang open_ h'.written
    refine ⟨s', _, by rw [TextStream.appendTo, if_neg (Nat.not_le_of_lt open_), is]; rfl, ?_⟩
    by_cases less : (output ++ out).length < CAP
    · cases held with
      | whole _ is => exact .inl ⟨is ▸ h', is ▸ less⟩
      | cut more => exact absurd less (Nat.not_lt_of_gt more)
    · have long := Nat.le_of_not_lt less
      exact .inr ⟨held.full long, _, long, held, h'.stays⟩
  · refine ⟨_, output, by rw [TextStream.appendTo, if_pos full], .inr ⟨full, shown, long, held, fun more => ?_⟩⟩
    rw [List.append_assoc]
    exact stays (text ++ more)

end Khor.Node.AgentOutput
