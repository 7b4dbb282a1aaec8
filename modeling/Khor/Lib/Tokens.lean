/-
Module: Khor.Lib.Tokens
Purpose: White-space separated tokens with double quotes: the first token of a text and what follows it, the tokens one
  after another, and what becomes of them when something is written behind. A text whose quotes are even in number
  keeps its tokens whatever follows after a blank; one with an odd quote reaches into what follows.
Trusted boundary: none
Main exports: scan, lead, tokens, Consumes, Consumes.append_blank
-/
import Khor.Lib.Decimal

namespace Khor

/-- A token from its first character on, its double quotes taken off, and what follows it. -/
def scan : Bool → Text → Text × Text
  | _, [] => ([], [])
  | quoted, c :: cs =>
      if c = '"' then scan (!quoted) cs
      else if isSpace c && !quoted then ([], c :: cs)
      else (c :: (scan quoted cs).1, (scan quoted cs).2)

/-- The first token and what follows it; none when only white space is left. -/
def lead (s : Text) : Option (Text × Text) :=
  match s.dropWhile isSpace with
  | [] => none
  | t => some (scan false t)

theorem scan_suffix (quoted : Bool) (s : Text) : (scan quoted s).2 <:+ s := by
  induction s generalizing quoted with
  | nil => exact List.suffix_refl []
  | cons c s ih =>
      rw [scan]
      split
      · exact (ih _).trans (List.suffix_cons c s)
      · split
        · exact List.suffix_refl _
        · exact (ih _).trans (List.suffix_cons c s)

variable {s tok after left a h : Text} {c : Char} {toks : List Text} {quoted : Bool}

theorem lead_eq_none : lead s = none ↔ s.dropWhile isSpace = [] := by
  unfold lead
  split <;> simp_all

theorem lead_eq_some :
    lead s = some (tok, after) ↔ s.dropWhile isSpace ≠ [] ∧ scan false (s.dropWhile isSpace) = (tok, after) := by
  unfold lead
  split <;> simp_all

theorem lead_suffix (is : lead s = some (tok, after)) : after <:+ s := by
  have within := scan_suffix false (s.dropWhile isSpace)
  rw [(lead_eq_some.mp is).2] at within
  exact within.trans (List.dropWhile_suffix isSpace)

theorem head_not_space {t : Text} (is : s.dropWhile isSpace = c :: t) : isSpace c = false := by
  have ends := List.head?_dropWhile_not isSpace s
  rw [is] at ends
  simpa using ends

theorem lead_shorter (is : lead s = some (tok, after)) : after.length < s.length := by
  obtain ⟨some, scanned⟩ := lead_eq_some.mp is
  have shorter := (List.dropWhile_suffix (l := s) isSpace).length_le
  cases t : s.dropWhile isSpace with
  | nil => exact absurd t some
  | cons c cs =>
      have solid := head_not_space t
      rw [t, List.length_cons] at shorter
      rw [t, scan] at scanned
      have rest (quoted : Bool) := (scan_suffix quoted cs).length_le
      split at scanned
      · have := rest (!false)
        rw [scanned] at this
        exact Nat.lt_of_le_of_lt this (Nat.lt_of_succ_le shorter)
      · rw [solid, Bool.false_and, if_neg Bool.false_ne_true] at scanned
        have := rest false
        rw [(Prod.mk.inj scanned).2] at this
        exact Nat.lt_of_le_of_lt this (Nat.lt_of_succ_le shorter)

/-- The tokens of a text, one after another. -/
def tokens (s : Text) : List Text :=
  match _ : lead s with
  | none => []
  | some (tok, after) => tok :: tokens after
termination_by s.length
decreasing_by exact lead_shorter ‹_›

/-- Taking these tokens off the front leaves that. -/
inductive Consumes : Text → List Text → Text → Prop where
  | done (s : Text) : Consumes s [] s
  | next {s tok after : Text} {toks : List Text} {left : Text} (first : lead s = some (tok, after))
      (rest : Consumes after toks left) : Consumes s (tok :: toks) left

theorem consumes_tokens (s : Text) : ∃ left, Consumes s (tokens s) left ∧ lead left = none := by
  induction s using tokens.induct with
  | case1 s is =>
      rw [tokens]
      split
      · exact ⟨s, .done s, is⟩
      · simp_all
  | case2 s tok after is ih =>
      obtain ⟨left, rest, none⟩ := ih
      rw [tokens]
      split
      · simp_all
      · rename_i tok' after' is'
        rw [is] at is'
        cases is'
        exact ⟨left, .next is rest, none⟩

/-- There is one way to take tokens off until none is left. -/
theorem Consumes.eq_tokens (run : Consumes s toks left) (none : lead left = none) : toks = tokens s := by
  induction run with
  | done s =>
      rw [tokens]
      split
      · rfl
      · simp_all
  | next first rest ih =>
      rw [tokens]
      split
      · simp_all
      · rename_i is
        rw [first] at is
        cases is
        rw [ih none]

theorem Consumes.tokens_append (run : Consumes s toks left) : tokens s = toks ++ tokens left := by
  obtain ⟨left', run', none⟩ := consumes_tokens left
  have whole : Consumes s (toks ++ tokens left) left' := by
    induction run with
    | done s => exact run'
    | next first rest ih => exact .next first (ih run')
  exact (whole.eq_tokens none).symm

theorem Consumes.suffix (run : Consumes s toks left) : left <:+ s := by
  induction run with
  | done s => exact List.suffix_refl s
  | next first _ ih => exact ih.trans (lead_suffix first)

/-! ### How much is left -/

/-- How long a text is without the white space around it. -/
def width (s : Text) : Nat := (trim s).length

theorem trim_space (space : isSpace c = true) : trim (c :: s) = trim s := by
  rw [trim, trim, List.dropWhile_cons_of_pos space]

/-- Text without the white space after it. -/
def trimEnd (s : Text) : Text := (s.reverse.dropWhile isSpace).reverse

theorem trimEnd_cons (c : Char) (s : Text) :
    trimEnd (c :: s) = if trimEnd s = [] ∧ isSpace c = true then [] else c :: trimEnd s := by
  unfold trimEnd
  rw [List.reverse_cons, List.dropWhile_append]
  cases rest : s.reverse.dropWhile isSpace with
  | nil => cases space : isSpace c <;> simp [List.dropWhile, space]
  | cons d ds => simp

theorem trim_eq (s : Text) : trim s = trimEnd (s.dropWhile isSpace) := rfl

theorem trim_suffix_trimEnd (s : Text) : trim s <:+ trimEnd s := by
  induction s with
  | nil => exact List.suffix_refl []
  | cons c s ih =>
      cases space : isSpace c with
      | true =>
          rw [trim_space space, trimEnd_cons]
          split
          · rename_i blank
            rw [blank.1] at ih
            exact ih
          · exact ih.trans (List.suffix_cons c _)
      | false =>
          rw [trim_eq, List.dropWhile_cons_of_neg (by rw [space]; exact Bool.false_ne_true)]

theorem width_nonspace (s : Text) (solid : isSpace c = false) : width s < width (c :: s) := by
  have within := (trim_suffix_trimEnd s).length_le
  rw [width, width, trim_eq (c :: s), List.dropWhile_cons_of_neg (by rw [solid]; exact Bool.false_ne_true),
    trimEnd_cons, if_neg (fun h => by rw [solid] at h; exact Bool.false_ne_true h.2), List.length_cons]
  exact Nat.lt_succ_of_le within

theorem width_cons (c : Char) (s : Text) : width s ≤ width (c :: s) := by
  cases space : isSpace c with
  | true => rw [width, width, trim_space space]
  | false => exact Nat.le_of_lt (width_nonspace s space)

theorem width_suffix {t : Text} (suffix : s <:+ t) : width s ≤ width t := by
  obtain ⟨front, rfl⟩ := suffix
  induction front with
  | nil => exact Nat.le_refl _
  | cons c front ih => exact ih.trans (width_cons c _)

/-- A token takes a character that is no white space. -/
theorem width_lead (is : lead s = some (tok, after)) : width after < width s := by
  obtain ⟨some, scanned⟩ := lead_eq_some.mp is
  cases t : s.dropWhile isSpace with
  | nil => exact absurd t some
  | cons c cs =>
      have solid := head_not_space t
      have within : after <:+ cs := by
        rw [t, scan] at scanned
        split at scanned
        · have := scan_suffix (!false) cs
          rw [scanned] at this
          exact this
        · rw [solid, Bool.false_and, if_neg Bool.false_ne_true] at scanned
          have := scan_suffix false cs
          rw [(Prod.mk.inj scanned).2] at this
          exact this
      have whole : c :: cs <:+ s := t ▸ List.dropWhile_suffix isSpace
      exact Nat.lt_of_le_of_lt (width_suffix within)
        (Nat.lt_of_lt_of_le (width_nonspace cs solid) (width_suffix whole))

/-- Where nothing but white space went, no token went. -/
theorem Consumes.of_width (run : Consumes s toks left) (same : width s ≤ width left) : toks = [] ∧ left = s := by
  cases run with
  | done => exact ⟨rfl, rfl⟩
  | next first rest =>
      have less := width_lead first
      have within := width_suffix rest.suffix
      exact absurd same (by omega)

/-! ### Quotes -/

/-- Whether the end of a text stands between quotes. -/
def quotedAfter (quoted : Bool) (s : Text) : Bool := quoted ^^ (s.count '"' % 2 == 1)

theorem quotedAfter_quote (quoted : Bool) (s : Text) : quotedAfter quoted ('"' :: s) = quotedAfter (!quoted) s := by
  have parity : ((s.count '"' + 1) % 2 == 1) = !(s.count '"' % 2 == 1) := by
    rcases Nat.mod_two_eq_zero_or_one (s.count '"') with even | odd
    · rw [Nat.add_mod, even]
      rfl
    · rw [Nat.add_mod, odd]
      rfl
  rw [quotedAfter, quotedAfter, List.count_cons_self, parity]
  cases quoted <;> cases (s.count '"' % 2 == 1) <;> rfl

theorem quotedAfter_other (quoted : Bool) (s : Text) (other : c ≠ '"') :
    quotedAfter quoted (c :: s) = quotedAfter quoted s := by
  rw [quotedAfter, quotedAfter, List.count_cons_of_ne other]

/-- A scan that stops inside a text stops there whatever follows. -/
theorem scan_append_stopped (b : Text) (stopped : (scan quoted a).2 ≠ []) :
    scan quoted (a ++ b) = ((scan quoted a).1, (scan quoted a).2 ++ b) := by
  induction a generalizing quoted with
  | nil => exact absurd rfl stopped
  | cons c a ih =>
      rw [List.cons_append, scan, scan]
      rw [scan] at stopped
      split
      · rename_i quote
        rw [if_pos quote] at stopped
        exact ih stopped
      · rename_i quote
        rw [if_neg quote] at stopped
        split
        · rfl
        · rename_i inside
          rw [if_neg inside] at stopped
          rw [ih stopped]

/-- A scan that reaches the end of a text goes on behind it, between quotes or not. -/
theorem scan_append_through (b : Text) (through : (scan quoted a).2 = []) :
    scan quoted (a ++ b) = ((scan quoted a).1 ++ (scan (quotedAfter quoted a) b).1,
      (scan (quotedAfter quoted a) b).2) := by
  induction a generalizing quoted with
  | nil =>
      have same : quotedAfter quoted [] = quoted := Bool.xor_false quoted
      rw [same]
      rfl
  | cons c a ih =>
      rw [List.cons_append, scan, scan]
      rw [scan] at through
      split
      · rename_i quote
        rw [if_pos quote] at through
        subst quote
        rw [quotedAfter_quote]
        exact ih through
      · rename_i quote
        rw [if_neg quote] at through
        split
        · rename_i stops
          rw [if_pos stops] at through
          cases through
        · rename_i inside
          rw [if_neg inside] at through
          rw [ih through, quotedAfter_other quoted a quote]
          rfl

/-- A token ends outside quotes, so what follows it has the quotes that are still open. -/
theorem quotedAfter_scan (stopped : (scan quoted a).2 ≠ []) :
    quotedAfter quoted a = quotedAfter false (scan quoted a).2 := by
  induction a generalizing quoted with
  | nil => exact absurd rfl stopped
  | cons c a ih =>
      rw [scan] at stopped ⊢
      split
      · rename_i quote
        rw [if_pos quote] at stopped
        subst quote
        rw [quotedAfter_quote]
        exact ih stopped
      · rename_i quote
        rw [if_neg quote] at stopped
        split
        · rename_i stops
          have outside : quoted = false := by
            cases quoted with
            | false => rfl
            | true => simp at stops
          rw [outside]
        · rename_i inside
          rw [if_neg inside] at stopped
          rw [quotedAfter_other quoted a quote]
          exact ih stopped

/-! ### A text written in front of another -/

/-- A text that does not end in white space. -/
def Solid (h : Text) : Prop := ∃ g c, h = g ++ [c] ∧ isSpace c = false

theorem Solid.ne_nil (solid : Solid h) : h ≠ [] := by
  obtain ⟨g, c, rfl, -⟩ := solid
  exact List.append_ne_nil_of_right_ne_nil g (List.cons_ne_nil c [])

theorem Solid.of_suffix {r : Text} (solid : Solid h) (suffix : r <:+ h) (some : r ≠ []) : Solid r := by
  obtain ⟨g, c, rfl, last⟩ := solid
  obtain ⟨front, is⟩ := suffix
  rw [← List.dropLast_append_getLast some, ← List.append_assoc] at is
  obtain ⟨-, final⟩ := List.append_inj' is rfl
  exact ⟨r.dropLast, c, by rw [← final, List.dropLast_append_getLast some], last⟩

/-- There is a character to begin a token with, and white space in front of it goes alone. -/
theorem Solid.dropWhile (solid : Solid h) (b : Text) :
    Solid (h.dropWhile isSpace) ∧ (h ++ b).dropWhile isSpace = h.dropWhile isSpace ++ b := by
  have some : h.dropWhile isSpace ≠ [] := by
    obtain ⟨g, c, rfl, last⟩ := solid
    intro none
    have space := List.dropWhile_eq_nil_iff.mp none c (List.mem_append_right g (.head _))
    rw [last] at space
    exact Bool.false_ne_true space
  refine ⟨solid.of_suffix (List.dropWhile_suffix isSpace) some, ?_⟩
  rw [List.dropWhile_append, if_neg (by rw [List.isEmpty_iff]; exact some)]

theorem quotedAfter_dropWhile (quoted : Bool) (s : Text) :
    quotedAfter quoted (s.dropWhile isSpace) = quotedAfter quoted s := by
  induction s with
  | nil => rfl
  | cons c s ih =>
      cases space : isSpace c with
      | true =>
          have other : c ≠ '"' := by
            rintro rfl
            exact absurd space (by decide)
          rw [List.dropWhile_cons_of_pos space, ih, quotedAfter_other quoted s other]
      | false => rw [List.dropWhile_cons_of_neg (by rw [space]; exact Bool.false_ne_true)]

theorem width_blank_cons (s : Text) : width (' ' :: s) = width s := by rw [width, width, trim_space (by decide)]

/-- What stands in front of the text makes it wider. -/
theorem width_solid (solid : Solid h) (text : Text) : width text < width (h ++ ' ' :: text) := by
  obtain ⟨g, c, rfl, last⟩ := solid
  rw [List.append_assoc, List.singleton_append]
  calc width text = width (' ' :: text) := (width_blank_cons text).symm
    _ < width (c :: ' ' :: text) := width_nonspace _ last
    _ ≤ width (g ++ c :: ' ' :: text) := width_suffix (List.suffix_append g _)

theorem scan_blank (text : Text) : scan false (' ' :: text) = ([], ' ' :: text) := rfl

/-- Between quotes a token goes on: over all of a blank text, and into one that is not. -/
theorem scan_quoted (text : Text) :
    width (scan true text).2 < width text ∨ (width text = 0 ∧ (scan true text).2 = []) := by
  induction text with
  | nil => exact .inr ⟨rfl, rfl⟩
  | cons c s ih =>
      cases space : isSpace c with
      | true =>
          have other : c ≠ '"' := by
            rintro rfl
            exact absurd space (by decide)
          have same : width (c :: s) = width s := by rw [width, width, trim_space space]
          rw [scan, if_neg other, same, if_neg (by rw [Bool.not_true, Bool.and_false]; exact Bool.false_ne_true)]
          exact ih
      | false =>
          left
          refine Nat.lt_of_le_of_lt ?_ (width_nonspace s space)
          rw [scan]
          split
          · exact width_suffix (scan_suffix _ s)
          · rw [space, Bool.false_and, if_neg Bool.false_ne_true]
            exact width_suffix (scan_suffix true s)

/-- Tokens off a text with a head in front of it that leave just the text: the head's own tokens where its quotes are
closed; where one is open the last of them takes the whole text, which is blank. -/
theorem Consumes.of_solid {whole : Text} (run : Consumes whole toks left) :
    ∀ {h text : Text}, whole = h ++ ' ' :: text → Solid h → width left = width text →
      (quotedAfter false h = false ∧ Consumes h toks [] ∧ left = ' ' :: text) ∨
        (quotedAfter false h = true ∧ width text = 0 ∧ left = []) := by
  induction run with
  | done s =>
      rintro h text rfl solid same
      exact absurd same (Nat.ne_of_gt (width_solid solid text))
  | @next s tok after toks left first rest ih =>
      rintro h text rfl solid same
      obtain ⟨solid', front⟩ := solid.dropWhile (' ' :: text)
      obtain ⟨-, scanned⟩ := lead_eq_some.mp first
      rw [front] at scanned
      have own : lead h = some (scan false (h.dropWhile isSpace)) := lead_eq_some.mpr ⟨solid'.ne_nil, rfl⟩
      rw [← quotedAfter_dropWhile]
      by_cases through : (scan false (h.dropWhile isSpace)).2 = []
      · rw [scan_append_through _ through] at scanned
        cases quoted : quotedAfter false (h.dropWhile isSpace) with
        | false =>
            rw [quoted, scan_blank, List.append_nil] at scanned
            cases scanned
            obtain ⟨rfl, rfl⟩ := rest.of_width (by rw [width_blank_cons, same])
            refine .inl ⟨rfl, .next own ?_, rfl⟩
            rw [through]
            exact .done []
        | true =>
            have inside : (scan true (' ' :: text)).2 = (scan true text).2 := rfl
            rw [quoted] at scanned
            have is : after = (scan true text).2 := by rw [← (Prod.mk.inj scanned).2, inside]
            have shrinks := width_suffix rest.suffix
            rw [is] at shrinks
            obtain less | ⟨blank, none⟩ := scan_quoted text
            · exact absurd same (by omega)
            · rw [none] at is
              subst is
              exact .inr ⟨rfl, blank, List.suffix_nil.mp rest.suffix⟩
      · rw [scan_append_stopped _ through] at scanned
        cases scanned
        have suffix := (scan_suffix false (h.dropWhile isSpace))
        rw [quotedAfter_scan through]
        obtain ⟨even, run, is⟩ | odd := ih rfl (solid'.of_suffix suffix through) same
        · exact .inl ⟨even, .next own run, is⟩
        · exact .inr odd

/-- A head with its quotes closed keeps its tokens, whatever is written behind a blank. -/
theorem Consumes.append_blank (run : Consumes h toks left) (text : Text) :
    left = [] → Solid h → quotedAfter false h = false → Consumes (h ++ ' ' :: text) toks (' ' :: text) := by
  induction run with
  | done s =>
      rintro rfl solid
      exact absurd rfl solid.ne_nil
  | @next s tok after toks left first rest ih =>
      rintro rfl solid even
      obtain ⟨solid', front⟩ := solid.dropWhile (' ' :: text)
      obtain ⟨begins, scanned⟩ := lead_eq_some.mp first
      have begins' : (s ++ ' ' :: text).dropWhile isSpace ≠ [] := by
        rw [front]
        exact List.append_ne_nil_of_left_ne_nil begins _
      rw [← quotedAfter_dropWhile] at even
      by_cases through : after = []
      · have ended : (scan false (s.dropWhile isSpace)).2 = [] := by rw [scanned, through]
        have first' : lead (s ++ ' ' :: text) = some (tok, ' ' :: text) := by
          rw [lead_eq_some, front, scan_append_through _ ended, even, scan_blank, scanned, List.append_nil]
          exact ⟨front ▸ begins', rfl⟩
        subst through
        obtain ⟨rfl, -⟩ := rest.of_width (Nat.le_refl _)
        exact .next first' (.done _)
      · have stopped : (scan false (s.dropWhile isSpace)).2 ≠ [] := by rw [scanned]; exact through
        have first' : lead (s ++ ' ' :: text) = some (tok, after ++ ' ' :: text) := by
          rw [lead_eq_some, front, scan_append_stopped _ stopped, scanned]
          exact ⟨front ▸ begins', rfl⟩
        have solid'' : Solid after := solid.of_suffix (lead_suffix first) through
        have even' := quotedAfter_scan stopped
        rw [even, scanned] at even'
        exact .next first' (ih rfl solid'' even'.symm)

/-- A text that does not end in white space is all tokens. -/
theorem Solid.consumes (solid : Solid h) : Consumes h (tokens h) [] := by
  obtain ⟨left, run, none⟩ := consumes_tokens h
  by_cases some : left = []
  · rw [some] at run
    exact run
  · have rest := (solid.of_suffix run.suffix some).dropWhile []
    exact absurd (lead_eq_none.mp none) rest.1.ne_nil

theorem width_eq_zero : width s = 0 ↔ trim s = [] := List.length_eq_zero_iff

/-- Nothing is left of a blank text. -/
theorem lead_none_iff : lead s = none ↔ trim s = [] := by
  rw [lead_eq_none]
  constructor
  · intro none
    rw [trim, none]
    rfl
  · intro none
    cases t : s.dropWhile isSpace with
    | nil => rfl
    | cons c cs =>
        have less := width_nonspace cs (head_not_space t)
        have within : width (c :: cs) ≤ width s := width_suffix (t ▸ List.dropWhile_suffix isSpace)
        rw [width_eq_zero.mpr none] at within
        exact absurd less (by omega)

theorem lead_blank_cons (s : Text) : lead (' ' :: s) = lead s := by
  rw [lead, lead, List.dropWhile_cons_of_pos (by decide)]

end Khor
