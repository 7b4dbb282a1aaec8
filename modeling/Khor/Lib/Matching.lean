/-
Module: Khor.Lib.Matching
Purpose: A pattern's occurrences in a text, from the left and none over another, the text with something else in the place
  of each, the table by which a reader of the text knows how much of the pattern stands at its end, and the places where
  a text that is written in words can be cut.
Trusted boundary: none
Main exports: replace_first, Longest, prefixTable_longest, scan_longest, Code
-/
import Mathlib

namespace Khor

variable {α : Type}

/-! ### Where a pattern occurs -/

/-- The pattern occurs nowhere. -/
def Free (key xs : List α) : Prop := ∀ j, ¬ key <+: xs.drop j

/-- Where the pattern occurs first. -/
structure First (key xs : List α) (i : Nat) : Prop where
  here : key <+: xs.drop i
  least : ∀ j < i, ¬ key <+: xs.drop j

variable {key to_ xs more : List α}

theorem First.tail {x : α} {i : Nat} (first : First key (x :: xs) (i + 1)) : First key xs i :=
  ⟨first.here, fun j before => first.least (j + 1) (Nat.succ_lt_succ before)⟩

theorem free_or_first (key xs : List α) : Free key xs ∨ ∃ i, First key xs i := by
  by_cases some_ : ∃ i, key <+: xs.drop i
  · classical
    exact .inr ⟨Nat.find some_, Nat.find_spec some_, fun j before => Nat.find_min some_ before⟩
  · exact .inl fun j occurs => some_ ⟨j, occurs⟩

theorem First.fits {i : Nat} (key_some : key ≠ []) (first : First key xs i) : i + key.length ≤ xs.length := by
  have fits := first.here.length_le
  have pos := List.length_pos_of_ne_nil key_some
  rw [List.length_drop] at fits
  omega

/-- What follows does not change where the pattern occurs first. -/
theorem First.append {i : Nat} (key_some : key ≠ []) (first : First key xs i) (more : List α) : First key (xs ++ more) i := by
  have fits := first.fits key_some
  constructor
  · rw [List.drop_append_of_le_length (by omega)]
    exact first.here.trans (List.prefix_append _ _)
  · intro j before occurs
    rw [List.drop_append_of_le_length (by omega)] at occurs
    refine first.least j before (List.prefix_of_prefix_length_le occurs (List.prefix_append _ _) ?_)
    rw [List.length_drop]
    omega

theorem Free.append_drop (free : Free key xs) {j : Nat} (long : key.length ≤ xs.length - j) :
    ¬ key <+: xs.drop j ++ more := fun occurs =>
  free j (List.prefix_of_prefix_length_le occurs (List.prefix_append _ _) (by rw [List.length_drop]; exact long))

theorem take_succ_suffix {w : List α} {x : α} {k : Nat} (inside : k < key.length) :
    key.take (k + 1) <:+ w ++ [x] ↔ key.take k <:+ w ∧ key[k] = x := by
  rw [List.take_succ_eq_append_getElem inside, List.suffix_concat_iff]
  constructor
  · rintro (none_ | ⟨t, is, ends⟩)
    · exact absurd (List.append_eq_nil_iff.mp none_).2 (List.cons_ne_nil _ _)
    · obtain ⟨rfl, same⟩ := List.append_inj' is rfl
      exact ⟨ends, List.singleton_inj.mp same⟩
  · rintro ⟨ends, rfl⟩
    exact .inr ⟨_, rfl, ends⟩

variable [DecidableEq α]

/-! ### Occurrences and replacement -/

/-- Where a pattern occurs from `at_` on; the first `skip` elements are of the occurrence before. -/
def matchIndices (key : List α) : (skip at_ : Nat) → List α → List Nat
  | _, _, [] => []
  | skip + 1, at_, _ :: rest => matchIndices key skip (at_ + 1) rest
  | 0, at_, x :: rest =>
      if key.isPrefixOf (x :: rest) then at_ :: matchIndices key (key.length - 1) (at_ + 1) rest
      else matchIndices key 0 (at_ + 1) rest

/-- The text with each occurrence replaced; the first `skip` elements are of the occurrence before. -/
def replaceFrom (key to_ : List α) : (skip : Nat) → List α → List α
  | _, [] => []
  | skip + 1, _ :: rest => replaceFrom key to_ skip rest
  | 0, x :: rest =>
      if key.isPrefixOf (x :: rest) then to_ ++ replaceFrom key to_ (key.length - 1) rest
      else x :: replaceFrom key to_ 0 rest

def replace (key to_ raw : List α) : List α := replaceFrom key to_ 0 raw

theorem Free.none (free : Free key xs) : ¬ key.isPrefixOf xs = true := fun occurs =>
  free 0 (List.isPrefixOf_iff_prefix.mp occurs)

theorem First.now (first : First key xs 0) : key.isPrefixOf xs = true := List.isPrefixOf_iff_prefix.mpr first.here

theorem First.not_yet {i : Nat} (first : First key xs (i + 1)) : ¬ key.isPrefixOf xs = true := fun occurs =>
  first.least 0 (Nat.succ_pos i) (List.isPrefixOf_iff_prefix.mp occurs)

theorem matchIndices_free : ∀ {xs : List α} (_ : Free key xs) (at_ : Nat), matchIndices key 0 at_ xs = []
  | [], _, _ => rfl
  | x :: rest, free, at_ => by
      rw [matchIndices, if_neg free.none]
      exact matchIndices_free (fun j occurs => free (j + 1) occurs) (at_ + 1)

theorem replace_free : ∀ {xs : List α}, Free key xs → replace key to_ xs = xs
  | [], _ => rfl
  | x :: rest, free => by
      rw [replace, replaceFrom, if_neg free.none]
      exact congrArg (x :: ·) (replace_free fun j occurs => free (j + 1) occurs)

theorem matchIndices_skip : ∀ (xs : List α) (skip at_ : Nat),
    matchIndices key skip at_ xs = matchIndices key 0 (at_ + skip) (xs.drop skip)
  | [], 0, at_ => rfl
  | [], skip + 1, at_ => by rw [List.drop_nil, matchIndices, matchIndices]
  | x :: rest, 0, at_ => rfl
  | x :: rest, skip + 1, at_ => by
      rw [matchIndices, matchIndices_skip rest skip (at_ + 1), List.drop_succ_cons]
      congr 1
      omega

theorem replaceFrom_skip : ∀ (xs : List α) (skip : Nat), replaceFrom key to_ skip xs = replace key to_ (xs.drop skip)
  | _, 0 | [], _ + 1 => rfl
  | _ :: rest, skip + 1 => replaceFrom_skip rest skip

section Occurrences

variable (key_some : key ≠ [])

include key_some

theorem matchIndices_first : ∀ {xs : List α} {i : Nat} (_ : First key xs i) (at_ : Nat),
    matchIndices key 0 at_ xs =
      (at_ + i) :: matchIndices key 0 (at_ + i + key.length) (xs.drop (i + key.length))
  | [], i, first, _ => absurd (List.prefix_nil.mp (List.drop_nil (i := i) ▸ first.here)) key_some
  | x :: rest, 0, first, at_ => by
      obtain ⟨n, is⟩ := Nat.exists_eq_add_of_lt (List.length_pos_of_ne_nil key_some)
      rw [matchIndices, if_pos first.now, matchIndices_skip, is]
      simp only [Nat.zero_add, Nat.add_sub_cancel, List.drop_succ_cons, Nat.add_zero, Nat.add_right_comm at_ 1,
        Nat.add_assoc]
  | x :: rest, i + 1, first, at_ => by
      rw [matchIndices, if_neg first.not_yet, matchIndices_first first.tail,
        Nat.add_right_comm i 1, List.drop_succ_cons, Nat.add_assoc at_ 1 i, Nat.add_comm 1 i]

theorem replace_first : ∀ {xs : List α} {i : Nat}, First key xs i →
    replace key to_ xs = xs.take i ++ to_ ++ replace key to_ (xs.drop (i + key.length))
  | [], i, first => absurd (List.prefix_nil.mp (List.drop_nil (i := i) ▸ first.here)) key_some
  | x :: rest, 0, first => by
      obtain ⟨n, is⟩ := Nat.exists_eq_add_of_lt (List.length_pos_of_ne_nil key_some)
      rw [replace, replaceFrom, if_pos first.now, replaceFrom_skip, is]
      simp only [Nat.zero_add, Nat.add_sub_cancel, List.drop_succ_cons, List.take_zero, List.nil_append]
  | x :: rest, i + 1, first => by
      rw [replace, replaceFrom, if_neg first.not_yet, Nat.add_right_comm i 1, List.drop_succ_cons, List.take_succ_cons]
      exact congrArg (x :: ·) (replace_first first.tail)

/-- What no occurrence begins in stays as it is. -/
theorem replace_hold {front : List α} (none_ : ∀ j < front.length, ¬ key <+: (front ++ more).drop j) :
    replace key to_ (front ++ more) = front ++ replace key to_ more := by
  have shift : ∀ j, front.length ≤ j → (front ++ more).drop j = more.drop (j - front.length) := by
    intro j past
    rw [List.drop_append, List.drop_eq_nil_of_le past, List.nil_append]
  rcases free_or_first key more with free | ⟨i, first⟩
  · rw [replace_free free, replace_free]
    intro j
    by_cases inside : j < front.length
    · exact none_ j inside
    · rw [shift j (by omega)]
      exact free _
  · have there : First key (front ++ more) (front.length + i) := by
      constructor
      · rw [shift _ (by omega), Nat.add_sub_cancel_left]
        exact first.here
      · intro j before
        by_cases inside : j < front.length
        · exact none_ j inside
        · rw [shift j (by omega)]
          exact first.least _ (by omega)
    rw [replace_first key_some there, replace_first key_some first, List.take_length_add_append, Nat.add_assoc,
      shift _ (by omega), Nat.add_sub_cancel_left]
    simp only [List.append_assoc]

end Occurrences

/-! ### How much of a pattern stands at the end -/

/-- As much of the pattern's beginning as a text ends with. -/
structure Longest (key w : List α) (m : Nat) : Prop where
  within : m ≤ key.length
  ends : key.take m <:+ w
  most : ∀ k ≤ key.length, key.take k <:+ w → k ≤ m

/-- Back to what the pattern can go on from with `x`. -/
def fallBack (key : List α) (table : List Nat) (x : α) : (fuel matched : Nat) → Option Nat
  | 0, _ => none
  | fuel + 1, matched =>
      if 0 < matched then do
        let y ← key[matched]?
        if x ≠ y then fallBack key table x fuel (← table[matched - 1]?)
        else some matched
      else some matched

/-- One element more; an index that is out of range is none. -/
def advance (key : List α) (table : List Nat) (matched : Nat) (x : α) : Option Nat := do
  let matched ← fallBack key table x (matched + 1) matched
  let y ← key[matched]?
  some (if x = y then matched + 1 else matched)

/-- For each place how much of the pattern's beginning ends there, the pattern as a whole left aside. -/
def prefixTable (key : List α) : Option (List Nat) :=
  (List.range' 1 (key.length - 1)).foldlM (fun table at_ => do
    let matched ← table[at_ - 1]?
    let x ← key[at_]?
    some (table.set at_ (← advance key table matched x))) (List.replicate key.length 0)

/-- What the table says of a place. -/
def Tells (key : List α) (table : List Nat) (q : Nat) : Prop :=
  ∃ p, table[q]? = some p ∧ Longest key ((key.drop 1).take q) p

variable {table : List Nat} {w : List α} {x : α} {m : Nat}

theorem fallBack_spec : ∀ {fuel s : Nat}, s < fuel → s < key.length → key.take s <:+ w →
    (∀ k ≤ key.length, key.take k <:+ w ++ [x] → k ≤ s + 1) → (∀ q < s, Tells key table q) →
    ∃ t, ∃ inside : t < key.length, fallBack key table x fuel s = some t ∧ key.take t <:+ w ∧
      (∀ k ≤ key.length, key.take k <:+ w ++ [x] → k ≤ t + 1) ∧ (t = 0 ∨ key[t] = x)
  | 0, _, fueled, _, _, _, _ => absurd fueled (Nat.not_lt_zero _)
  | fuel + 1, s, fueled, inside, ends, most, tells => by
      rw [fallBack]
      by_cases pos : 0 < s
      · rw [if_pos pos, List.getElem?_eq_getElem inside]
        by_cases same : x = key[s]
        · exact ⟨s, inside, by simp [same], ends, most, .inr same.symm⟩
        · obtain ⟨p, entry, longest⟩ := tells (s - 1) (by omega)
          have short : p ≤ s - 1 := by
            have := longest.ends.length_le
            simp only [List.length_take, List.length_drop] at this
            have := longest.within
            omega
          have step : fallBack key table x fuel p = (do
              let y ← some key[s]
              if x ≠ y then fallBack key table x fuel (← table[s - 1]?) else some s) := by
            simp [same, entry]
          rw [← step]
          have behind : (key.drop 1).take (s - 1) = (key.take s).drop 1 := (List.drop_take).symm
          refine fallBack_spec (by omega) (by omega) ?_ ?_ fun q less => tells q (by omega)
          · exact (longest.ends.trans (behind ▸ List.drop_suffix 1 _)).trans ends
          · intro k fits suffix
            have le := most k fits suffix
            rcases k with - | k
            · omega
            obtain ⟨onto, at_⟩ := (take_succ_suffix (by omega)).mp suffix
            have ne : k ≠ s := by
              rintro rfl
              exact same at_.symm
            -- both end the text, so the shorter ends the longer
            have within : key.take k <:+ (key.take s).drop 1 := by
              refine List.suffix_of_suffix_length_le onto ((List.drop_suffix 1 _).trans ends) ?_
              simp only [List.length_take, List.length_drop]
              omega
            have := longest.most k (by omega) (behind ▸ within)
            omega
      · rw [if_neg pos]
        exact ⟨s, inside, rfl, ends, most, .inl (by omega)⟩

/-- **One element more is read as the table tells.** -/
theorem advance_longest (is : Longest key w m) (inside : m < key.length) (tells : ∀ q < m, Tells key table q) (x : α) :
    ∃ n, advance key table m x = some n ∧ Longest key (w ++ [x]) n := by
  obtain ⟨t, less, back, ends, most, stopped⟩ := fallBack_spec (x := x) (Nat.lt_succ_self m) inside is.ends
    (fun k fits suffix => by
      rcases k with - | k
      · omega
      · have := is.most k (by omega) ((take_succ_suffix (by omega)).mp suffix).1
        omega) tells
  refine ⟨if x = key[t] then t + 1 else t, ?_, ?_⟩
  · rw [advance, back]
    simp [List.getElem?_eq_getElem less]
  split
  · next same => exact ⟨less, (take_succ_suffix less).mpr ⟨ends, same.symm⟩, most⟩
  · next other =>
    have zero : t = 0 := stopped.resolve_right fun same => other same.symm
    subst zero
    refine ⟨Nat.zero_le _, by rw [List.take_zero]; exact List.nil_suffix, fun k fits suffix => ?_⟩
    have le := most k fits suffix
    rcases k with - | k
    · exact Nat.le_refl 0
    · obtain rfl : k = 0 := by omega
      exact absurd ((take_succ_suffix less).mp suffix).2.symm other

/-- **The table of a pattern.** -/
theorem prefixTable_longest (key : List α) :
    ∃ table, prefixTable key = some table ∧ ∀ q < key.length, Tells key table q := by
  have steps : ∀ n ≤ key.length - 1, ∃ table, (List.range' 1 n).foldlM (fun table at_ => do
      let matched ← table[at_ - 1]?
      let x ← key[at_]?
      some (table.set at_ (← advance key table matched x))) (List.replicate key.length 0) = some table ∧
      table.length = key.length ∧ ∀ q ≤ n, q < key.length → Tells key table q := by
    intro n
    induction n with
    | zero =>
      intro _
      refine ⟨_, rfl, List.length_replicate, fun q le less => ?_⟩
      obtain rfl : q = 0 := by omega
      refine ⟨0, by rw [List.getElem?_replicate, if_pos less], Nat.zero_le _, by simp, fun k fits suffix => ?_⟩
      rw [List.take_zero, List.suffix_nil, List.take_eq_nil_iff] at suffix
      rcases suffix with zero | none_
      · omega
      · rw [none_] at less
        cases less
    | succ n ih =>
      intro within
      obtain ⟨table, ran, long, tells⟩ := ih (by omega)
      have inside : n + 1 < key.length := by omega
      obtain ⟨m, entry, longest⟩ := tells n (Nat.le_refl n) (by omega)
      have short : m ≤ n := by
        have := longest.ends.length_le
        simp only [List.length_take, List.length_drop] at this
        have := longest.within
        omega
      obtain ⟨next, advanced, onward⟩ :=
        advance_longest longest (by omega) (fun q less => tells q (by omega) (by omega)) key[n + 1]
      refine ⟨table.set (n + 1) next, ?_, by rw [List.length_set]; exact long, fun q le less => ?_⟩
      · rw [List.range'_concat, List.foldlM_append, ran]
        simp [Nat.add_comm 1 n, entry, List.getElem?_eq_getElem inside, advanced]
      · by_cases new : q = n + 1
        · subst new
          refine ⟨next, List.getElem?_set_self (by omega), ?_⟩
          rw [List.take_succ_eq_append_getElem (by rw [List.length_drop]; omega), List.getElem_drop]
          simpa [Nat.add_comm 1 n] using onward
        · obtain ⟨p, at_, is⟩ := tells q (by omega) less
          exact ⟨p, by rw [List.getElem?_set_ne (Ne.symm new)]; exact at_, is⟩
  obtain ⟨table, ran, -, tells⟩ := steps (key.length - 1) (Nat.le_refl _)
  exact ⟨table, ran, fun q less => tells q (by omega) less⟩

/-- **A text without the pattern is read to its end**, and how much of the pattern it ends with is known. -/
theorem scan_longest (key_some : key ≠ []) (tells : ∀ q < key.length, Tells key table q) : ∀ {text : List α},
    Free key text → ∃ m, text.foldlM (advance key table) 0 = some m ∧ Longest key text m ∧ m < key.length := by
  intro text
  have pos := List.length_pos_of_ne_nil key_some
  induction text using List.reverseRecOn with
  | nil =>
    intro _
    refine ⟨0, rfl, ⟨Nat.zero_le _, by simp, fun k fits suffix => ?_⟩, pos⟩
    rw [List.suffix_nil, List.take_eq_nil_iff] at suffix
    exact (suffix.resolve_right key_some).le
  | append_singleton text x ih =>
    intro free
    obtain ⟨m, ran, longest, inside⟩ := ih fun j occurs => by
      by_cases within : j ≤ text.length
      · exact free j (by rw [List.drop_append_of_le_length within]; exact occurs.trans (List.prefix_append _ _))
      · rw [List.drop_eq_nil_of_le (by omega)] at occurs
        exact key_some (List.prefix_nil.mp occurs)
    obtain ⟨n, advanced, onward⟩ := advance_longest longest inside (fun q less => tells q (by omega)) x
    refine ⟨n, by rw [List.foldlM_append, ran]; simp [advanced], onward, ?_⟩
    refine Nat.lt_of_le_of_ne onward.within fun whole => ?_
    have ends := onward.ends
    rw [whole, List.take_length] at ends
    obtain ⟨front, is⟩ := ends
    exact free front.length (by rw [← is, List.drop_left])

/-! ### A text in a code -/

/-- Letters written as words, of which the first elements alone are heads. -/
structure Code (σ α : Type) where
  word : σ → List α
  head : α → Bool
  begins : ∀ c, ∃ b rest, word c = b :: rest ∧ head b = true ∧ ∀ x ∈ rest, head x = false
  apart : ∀ {c d x y}, word c ++ x = word d ++ y → c = d

namespace Code

variable {σ α : Type} (code : Code σ α)

def Written (text : List α) : Prop := ∃ s : List σ, text = s.flatMap code.word

/-- A place where no word is cut in two. -/
def Cut (text : List α) (i : Nat) : Prop := i ≤ text.length ∧ ∀ x, text[i]? = some x → code.head x = true

variable {code} {x y text : List α} {i n w : Nat}

theorem Written.append : code.Written x → code.Written y → code.Written (x ++ y)
  | ⟨s, hs⟩, ⟨t, ht⟩ => ⟨s ++ t, by rw [hs, ht, List.flatMap_append]⟩

theorem Written.rest (first : code.Written x) (whole : code.Written (x ++ y)) : code.Written y := by
  obtain ⟨s, rfl⟩ := first
  obtain ⟨t, is⟩ := whole
  induction s generalizing t with
  | nil => exact ⟨t, is⟩
  | cons c s ih =>
    obtain ⟨b, rest, word, -⟩ := code.begins c
    cases t with
    | nil => simp [word] at is
    | cons d t =>
      rw [List.flatMap_cons, List.flatMap_cons, List.append_assoc] at is
      obtain rfl := code.apart is
      exact ih t (List.append_cancel_left is)

theorem Written.cut (i : Nat) (le : i ≤ text.length) (rest : code.Written (text.drop i)) :
    code.Cut text i := by
  refine ⟨le, fun x there => ?_⟩
  obtain ⟨s, is⟩ := rest
  rw [← Nat.add_zero i, ← List.getElem?_drop, is] at there
  cases s with
  | nil => cases there
  | cons c s =>
    obtain ⟨b, rest, word, head, -⟩ := code.begins c
    rw [List.flatMap_cons, word] at there
    cases there
    exact head

theorem cut_shift (front : List α) : code.Cut (front ++ text) (front.length + i) ↔ code.Cut text i := by
  rw [Cut, Cut, List.length_append, List.getElem?_append_right (Nat.le_add_right _ _), Nat.add_sub_cancel_left,
    Nat.add_le_add_iff_left]

theorem Cut.written (cut : code.Cut text i) (written : code.Written text) :
    code.Written (text.take i) ∧ code.Written (text.drop i) := by
  obtain ⟨s, rfl⟩ := written
  induction s generalizing i with
  | nil => exact ⟨⟨[], by simp⟩, ⟨[], by simp⟩⟩
  | cons c s ih =>
    by_cases inside : i < (code.word c).length
    · rcases i with - | i
      · exact ⟨⟨[], rfl⟩, ⟨c :: s, rfl⟩⟩
      · obtain ⟨b, rest, word, -, others⟩ := code.begins c
        have there := cut.2 (code.word c)[i + 1] (by rw [List.flatMap_cons, List.getElem?_append_left inside]; simp)
        have inner : (code.word c)[i + 1] ∈ rest := by simp [word]
        rw [others _ inner] at there
        cases there
    · obtain ⟨k, rfl⟩ := Nat.exists_eq_add_of_le (Nat.le_of_not_lt inside)
      obtain ⟨⟨front, hf⟩, behind⟩ := ih ((cut_shift _).mp cut)
      rw [List.flatMap_cons, List.take_length_add_append, List.drop_length_add_append]
      exact ⟨⟨c :: front, by rw [hf, List.flatMap_cons]⟩, behind⟩

theorem Cut.take (cut : code.Cut text i) (le : i ≤ n) : code.Cut (text.take n) i := by
  refine ⟨by rw [List.length_take]; exact Nat.le_min.mpr ⟨le, cut.1⟩, fun x there => cut.2 x ?_⟩
  rw [List.getElem?_take] at there
  split at there
  · exact there
  · cases there

/-- Less than a word before any place there is one that cuts none. -/
theorem Written.near (pos : 0 < w) (short : ∀ c, (code.word c).length ≤ w) (written : code.Written text)
    (le : n ≤ text.length) : ∃ i ≤ n, n < i + w ∧ code.Cut text i := by
  obtain ⟨s, rfl⟩ := written
  induction s generalizing n with
  | nil =>
    obtain rfl : n = 0 := Nat.le_zero.mp le
    exact ⟨0, Nat.le_refl 0, by omega, Nat.le_refl 0, fun x there => nomatch there⟩
  | cons c s ih =>
    have := short c
    by_cases inside : n < (code.word c).length
    · exact ⟨0, Nat.zero_le n, by omega, Written.cut 0 (Nat.zero_le _) ⟨c :: s, rfl⟩⟩
    · obtain ⟨k, rfl⟩ := Nat.exists_eq_add_of_le (Nat.le_of_not_lt inside)
      rw [List.flatMap_cons, List.length_append] at le
      obtain ⟨i, before, close, cut⟩ := ih (n := k) (by omega)
      exact ⟨(code.word c).length + i, by omega, by omega, (cut_shift _).mpr cut⟩

end Code

end Khor
