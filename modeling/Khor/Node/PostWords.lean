/-
Module: Khor.Node.PostWords
Purpose: Words written to one machine go through the same parser as a typed message. They stay its words exactly when
  the name reads as that machine and nothing else, and the words begin with neither a target nor a file on a machine.
Trusted boundary: none
Main exports: head, NamesOnly, fits_of_staysWords, parse_typed, words_addressed
-/
import Khor.Node.Post

namespace Khor.Post

/-- What stands in front of the words: the name, in quotes where it has white space. -/
def head (n : Text) : Text := if n.any isSpace then '@' :: '"' :: n ++ ['"'] else '@' :: n

/-- Tokens that push to one machine: the first names it with no directory, each other one names it again. -/
def NamesOnly (machines : List DeviceInfo) (m : DeviceInfo) : List Text → Prop
  | [] => False
  | first :: others => Names machines first (m, []) ∧ ∀ tok ∈ others, ∃ t, Names machines tok t ∧ t.1.id = m.id

/-- The first token is neither a target nor a file on a machine of the table. -/
def StartsWords (machines : List DeviceInfo) (text : Text) : Prop :=
  ∀ tok after, lead text = some (tok, after) → target tok = none ∧ fileOn machines tok = none

/-- Words for a machine are a push to it with these words, the white space around them off, and nothing else. -/
def StaysWords (machines : List DeviceInfo) (me : Text) (m : DeviceInfo) (name text : Text) : Prop :=
  parse (addressed name text) machines me = .ok ⟨[(m, [])], [], [], trim text⟩

/-- When they are: the name is somebody's, its tokens name just this machine, and the words begin with words. Where a
quote in the name is left open, only a blank text is not drawn into it. -/
def Fits (machines : List DeviceInfo) (m : DeviceInfo) (name text : Text) : Prop :=
  let n := trim name
  n ≠ [] ∧ n ≠ BROADCAST ∧
    if n.count '"' % 2 = 0 then NamesOnly machines m (tokens (head n)) ∧ StartsWords machines text
    else trim text = [] ∧ NamesOnly machines m (tokens (head n ++ ' ' :: text))

/-! ### Heads -/

theorem trim_solid {s : Text} (some : trim s ≠ []) : Solid (trim s) := by
  cases rest : (s.dropWhile isSpace).reverse.dropWhile isSpace with
  | nil =>
      rw [trim, rest] at some
      exact absurd rfl some
  | cons c cs =>
      refine ⟨cs.reverse, c, ?_, head_not_space rest⟩
      rw [trim, rest, List.reverse_cons]

theorem head_solid {n : Text} (solid : Solid n) : Solid (head n) := by
  unfold head
  split
  · exact ⟨'@' :: '"' :: n, '"', rfl, by decide⟩
  · obtain ⟨g, c, rfl, last⟩ := solid
    exact ⟨'@' :: g, c, rfl, last⟩

/-- The head closes every quote the name does not leave open. -/
theorem quotedAfter_head (n : Text) : quotedAfter false (head n) = !(n.count '"' % 2 == 0) := by
  have odd : (n.count '"' % 2 == 1) = !(n.count '"' % 2 == 0) := by
    rcases Nat.mod_two_eq_zero_or_one (n.count '"') with even | odd
    · rw [even]
      rfl
    · rw [odd]
      rfl
  unfold head
  split
  · rw [List.cons_append, quotedAfter_other false _ (by decide), List.cons_append, quotedAfter_quote, quotedAfter,
      List.count_append, List.count_singleton_self, ← odd]
    rcases Nat.mod_two_eq_zero_or_one (n.count '"') with even | odd
    · rw [Nat.add_mod, even]
      rfl
    · rw [Nat.add_mod, odd]
      rfl
  · rw [quotedAfter_other false _ (by decide), quotedAfter, Bool.false_xor, odd]

variable {name text me typed : Text} {m : DeviceInfo} {machines : List DeviceInfo} {toks : List Text}

theorem addressed_eq (some : trim name ≠ []) (other : trim name ≠ BROADCAST) :
    addressed name text = head (trim name) ++ ' ' :: text := by
  have nobody : ¬ (trim name = [] ∨ trim name = BROADCAST) := fun h => h.elim some other
  unfold addressed head
  dsimp only
  rw [if_neg nobody]
  split
  · simp only [List.cons_append, List.append_assoc, List.nil_append]
  · rfl

theorem addressed_nobody (nobody : trim name = [] ∨ trim name = BROADCAST) : addressed name text = text := by
  unfold addressed
  exact if_pos nobody

/-! ### Targets kept -/

theorem keep_grows (kept : List (DeviceInfo × Text)) (t : DeviceInfo × Text) : kept <+: keep kept t := by
  unfold keep
  split
  · exact List.prefix_refl kept
  · exact List.prefix_append kept [t]

theorem foldl_keep_grows (ts kept : List (DeviceInfo × Text)) : kept <+: ts.foldl keep kept := by
  induction ts generalizing kept with
  | nil => exact List.prefix_refl kept
  | cons t ts ih => exact (keep_grows kept t).trans (ih _)

/-- One machine is kept alone when every target is its row or another of its id. -/
theorem foldl_keep_one {p : Text} {ts : List (DeviceInfo × Text)} :
    ts.foldl keep [(m, p)] = [(m, p)] ↔ ∀ t ∈ ts, t.1.id = m.id := by
  induction ts with
  | nil => exact ⟨fun _ _ mem => absurd mem List.not_mem_nil, fun _ => rfl⟩
  | cons t ts ih =>
      rw [List.foldl_cons, List.forall_mem_cons, ← ih]
      by_cases same : m.id = t.1.id
      · have kept : keep [(m, p)] t = [(m, p)] := by simp [keep, same]
        rw [kept]
        exact ⟨fun h => ⟨same.symm, h⟩, And.right⟩
      · have kept : keep [(m, p)] t = [(m, p), t] := by simp [keep, same]
        rw [kept]
        constructor
        · intro h
          have longer := (foldl_keep_grows ts [(m, p), t]).length_le
          rw [h] at longer
          exact absurd longer (by simp)
        · exact fun h => absurd h.1.symm same

theorem namesOnly_iff : NamesOnly machines m toks ↔
      ∃ ts, List.Forall₂ (Names machines) toks ts ∧ ts.foldl keep [] = [(m, [])] := by
  constructor
  · intro only
    cases toks with
    | nil => exact only.elim
    | cons first others =>
        obtain ⟨names, again⟩ := only
        have rest : ∀ {l : List Text}, (∀ tok ∈ l, ∃ t, Names machines tok t ∧ t.1.id = m.id) →
            ∃ ts, List.Forall₂ (Names machines) l ts ∧ ∀ t ∈ ts, t.1.id = m.id := by
          intro l
          induction l with
          | nil => exact fun _ => ⟨[], .nil, fun _ mem => absurd mem List.not_mem_nil⟩
          | cons tok l ih =>
              intro each
              obtain ⟨t, is, id⟩ := each tok (.head _)
              obtain ⟨ts, more, ids⟩ := ih fun tok mem => each tok (.tail _ mem)
              exact ⟨t :: ts, .cons is more, List.forall_mem_cons.mpr ⟨id, ids⟩⟩
        obtain ⟨ts, more, ids⟩ := rest again
        exact ⟨(m, []) :: ts, .cons names more, foldl_keep_one.mpr ids⟩
  · rintro ⟨ts, names, alone⟩
    cases names with
    | nil => cases alone
    | @cons first t others ts is more =>
        have front := foldl_keep_grows ts [t]
        have one : t = (m, []) := by
          have alone' : ts.foldl keep [t] = [(m, [])] := alone
          rw [alone'] at front
          exact (List.cons.inj (front.eq_of_length rfl)).1
        subst one
        have ids := foldl_keep_one.mp alone
        refine ⟨is, ?_⟩
        clear alone front
        induction more with
        | nil => exact fun _ mem => absurd mem List.not_mem_nil
        | @cons tok t' l ts' is' more' ih =>
            intro tok' mem
            obtain rfl | later := List.mem_cons.mp mem
            · exact ⟨t', is', ids t' List.mem_cons_self⟩
            · exact ih (fun t mem => ids t (.tail _ mem)) tok' later

/-! ### The law -/

theorem startsWords_iff : StartsWords machines text ↔
      (∀ tok after, lead text = some (tok, after) → target tok = none) ∧
        ∀ tok after, lead text = some (tok, after) → fileOn machines tok = none :=
  ⟨fun h => ⟨fun tok after is => (h tok after is).1, fun tok after is => (h tok after is).2⟩,
    fun h tok after is => ⟨h.1 tok after is, h.2 tok after is⟩⟩

/-- Tokens that name one machine, and then no target and no file: a push to it with what is left as words. -/
theorem parse_pushes {left : Text} (run : Consumes typed toks left) (only : NamesOnly machines m toks)
    (stop : StartsWords machines left) : parse typed machines me = .ok ⟨[(m, [])], [], [], trim left⟩ := by
  obtain ⟨ts, names, alone⟩ := namesOnly_iff.mp only
  obtain ⟨noTarget, noFile⟩ := startsWords_iff.mp stop
  refine parse_ok.mpr ⟨[(m, [])], left, ⟨[], []⟩, left, ?_, files_stop noFile, rfl⟩
  rw [targets_run run names, alone, targets_stop noTarget]

/-- And the other way round. -/
theorem parse_pushed {words : Text} (run : parse typed machines me = .ok ⟨[(m, [])], [], [], words⟩) :
    ∃ toks left, Consumes typed toks left ∧ NamesOnly machines m toks ∧ StartsWords machines left ∧
      words = trim left := by
  obtain ⟨kept, rest, found, left, first, second, is⟩ := parse_ok.mp run
  obtain ⟨toks, ts, taken, names, fold, noTarget⟩ := targets_ok first
  obtain ⟨filed, took, count, noFile⟩ := files_took second
  obtain ⟨one, far, here, rfl⟩ := Draft.mk.inj is
  rw [← far, ← here] at count
  have none : filed = [] := List.length_eq_zero_iff.mp (by simp only [List.length_nil] at count; omega)
  subst none
  cases took
  exact ⟨toks, rest, taken, namesOnly_iff.mpr ⟨ts, names, by rw [← fold, ← one]⟩,
    startsWords_iff.mpr ⟨noTarget, noFile⟩, rfl⟩

theorem startsWords_blank : StartsWords machines (' ' :: text) ↔ StartsWords machines text := by
  unfold StartsWords
  rw [lead_blank_cons]

theorem staysWords_of_fits (fits : Fits machines m name text) : StaysWords machines me m name text := by
  obtain ⟨some, other, rest⟩ := fits
  have solid := head_solid (trim_solid some)
  have quotes := quotedAfter_head (trim name)
  rw [StaysWords, addressed_eq some other]
  split at rest
  · rename_i even
    obtain ⟨only, words⟩ := rest
    rw [even] at quotes
    have run := solid.consumes.append_blank text rfl solid quotes
    have blank : trim (' ' :: text) = trim text := trim_space (by decide)
    rw [← blank]
    exact parse_pushes run only (startsWords_blank.mpr words)
  · obtain ⟨empty, only⟩ := rest
    obtain ⟨left, run, none⟩ := consumes_tokens (head (trim name) ++ ' ' :: text)
    have stop : StartsWords machines left := fun tok after is => by rw [none] at is; cases is
    have words : trim text = trim left := by rw [empty, lead_none_iff.mp none]
    rw [words]
    exact parse_pushes run only stop

theorem fits_of_staysWords (stays : StaysWords machines me m name text) : Fits machines m name text := by
  obtain ⟨toks, left, run, only, stop, words⟩ := parse_pushed stays
  have same : width left = width text := by rw [width, width, words]
  by_cases nobody : trim name = [] ∨ trim name = BROADCAST
  · rw [addressed_nobody nobody] at run
    obtain ⟨rfl, -⟩ := run.of_width (Nat.le_of_eq same.symm)
    exact only.elim
  · obtain ⟨some, other⟩ := not_or.mp nobody
    have solid := head_solid (trim_solid some)
    have quotes := quotedAfter_head (trim name)
    rw [addressed_eq some other] at run
    refine ⟨some, other, ?_⟩
    obtain ⟨closed, own, rfl⟩ | ⟨opened, blank, rfl⟩ := run.of_solid rfl solid same
    · rw [closed] at quotes
      have even : (trim name).count '"' % 2 = 0 := by simpa using quotes
      rw [if_pos even, ← own.eq_tokens rfl]
      exact ⟨only, startsWords_blank.mp stop⟩
    · rw [opened] at quotes
      have odd : ¬ (trim name).count '"' % 2 = 0 := by simpa using quotes
      rw [if_neg odd, ← run.eq_tokens rfl]
      exact ⟨width_eq_zero.mp blank, only⟩

/-! ### Every typed string -/

theorem trimEnd_suffix {s t : Text} (suffix : s <:+ t) : trimEnd s <:+ trimEnd t := by
  obtain ⟨front, rfl⟩ := suffix
  induction front with
  | nil => exact List.suffix_refl _
  | cons c front ih =>
      rw [List.cons_append, trimEnd_cons]
      split
      · rename_i blank
        rw [blank.1] at ih
        exact ih
      · exact ih.trans (List.suffix_cons c _)

section

variable (ts : List (DeviceInfo × Text))

theorem foldl_keep_concat (t : DeviceInfo × Text) : (ts ++ [t]).foldl keep [] = keep (ts.foldl keep []) t := by
  rw [List.foldl_append, List.foldl_cons, List.foldl_nil]

/-- The first time each id is named, in that order. -/
theorem keep_ids : (ts.foldl keep []).map (·.1.id) = (ts.map (·.1.id)).eraseDups := by
  induction ts using List.reverseRecOn with
  | nil => rfl
  | append_singleton ts t ih =>
      rw [foldl_keep_concat, List.map_append, List.eraseDups_append, ← ih, keep]
      split
      · rename_i some_
        obtain ⟨q, mem, is⟩ := List.any_eq_true.mp some_
        have again : t.1.id ∈ ts.map (·.1.id) := by
          rw [← List.mem_eraseDups, ← ih]
          exact List.mem_map.mpr ⟨q, mem, of_decide_eq_true is⟩
        have gone : ([t].map (·.1.id)).removeAll (ts.map (·.1.id)) = [] := by
          simp only [List.map_cons, List.map_nil, List.removeAll, List.filter_cons, List.filter_nil]
          simp [again]
        rw [gone, List.eraseDups_nil, List.append_nil]
      · rename_i none_
        have again : t.1.id ∉ ts.map (·.1.id) := by
          rw [← List.mem_eraseDups, ← ih]
          intro mem
          obtain ⟨q, inside, is⟩ := List.mem_map.mp mem
          exact none_ (List.any_eq_true.mpr ⟨q, inside, decide_eq_true is⟩)
        have stays : ([t].map (·.1.id)).removeAll (ts.map (·.1.id)) = [t.1.id] := by
          simp only [List.map_cons, List.map_nil, List.removeAll, List.filter_cons, List.filter_nil]
          simp [again]
        rw [stays, List.map_append]
        rfl

theorem keep_sublist : (ts.foldl keep []).Sublist ts := by
  induction ts using List.reverseRecOn with
  | nil => exact List.Sublist.refl []
  | append_singleton ts t ih =>
      rw [foldl_keep_concat, keep]
      split
      · exact ih.trans (List.sublist_append_left ts [t])
      · exact ih.append (List.Sublist.refl [t])

theorem keep_nodup : ((ts.foldl keep []).map (·.1.id)).Nodup := by
  induction ts using List.reverseRecOn with
  | nil => exact List.nodup_nil
  | append_singleton ts t ih =>
      rw [foldl_keep_concat, keep]
      split
      · exact ih
      · rename_i new
        rw [List.map_append]
        refine List.nodup_append.mpr ⟨ih, List.pairwise_singleton _ _, ?_⟩
        rintro id mem id' mem' rfl
        obtain ⟨t', there, is⟩ := List.mem_map.mp mem
        obtain rfl := List.mem_singleton.mp mem'
        exact new (List.any_eq_true.mpr ⟨t', there, decide_eq_true is⟩)

end

/-- What the leading tokens name is what the loop took. -/
theorem named_targets {left : Text} {ts : List (DeviceInfo × Text)} (run : Consumes typed toks left)
    (names : List.Forall₂ (Names machines) toks ts)
    (stop : ∀ tok after, lead left = some (tok, after) → target tok = none) : named machines (tokens typed) = ts := by
  have last : named machines (tokens left) = [] := by
    rw [tokens]
    split
    · rfl
    · rename_i tok after is
      rw [named, resolve, stop tok after is]
      rfl
  rw [run.tokens_append]
  clear run
  induction names with
  | nil => exact last
  | cons is more ih =>
      rw [List.cons_append, named, is]
      exact congrArg _ ih

/-- Whatever is typed, each target is there once, in the order first named, and the words end the string. -/
theorem parse_typed {d : Draft} (run : parse typed machines me = .ok d) : (d.to.map (·.1.id)).Nodup ∧
      d.to.map (·.1.id) = ((named machines (tokens typed)).map (·.1.id)).eraseDups ∧
      d.to.Sublist (named machines (tokens typed)) ∧ d.text <:+ trimEnd typed := by
  obtain ⟨kept, rest, found, left, first, second, rfl⟩ := parse_ok.mp run
  obtain ⟨toks, ts, taken, names, rfl, stop⟩ := targets_ok first
  obtain ⟨filed, took, -, -⟩ := files_took second
  rw [named_targets taken names stop]
  refine ⟨keep_nodup ts, keep_ids ts, keep_sublist ts, ?_⟩
  exact (trim_suffix_trimEnd left).trans (trimEnd_suffix (took.suffix.trans taken.suffix))

/-! ### Every message -/

/-- Words for one machine stay its words exactly when they fit; and every typed string names its targets once, in the
order first named, with words that end it. -/
theorem words_addressed (machines : List DeviceInfo) (me : Text) :
    (∀ m name text, StaysWords machines me m name text ↔ Fits machines m name text) ∧
      ∀ typed d, parse typed machines me = .ok d →
        (d.to.map (·.1.id)).Nodup ∧
          d.to.map (·.1.id) = ((named machines (tokens typed)).map (·.1.id)).eraseDups ∧
          d.to.Sublist (named machines (tokens typed)) ∧ d.text <:+ trimEnd typed :=
  ⟨fun _ _ _ => ⟨fits_of_staysWords, staysWords_of_fits⟩, fun _ _ run => parse_typed run⟩

def turing : DeviceInfo := ⟨['t'], ['t', 'u', 'r', 'i', 'n', 'g'], none⟩

/-- A network of two machines: this one, `mac`, and `turing`. -/
def table : List DeviceInfo := [⟨['m', 'e'], ['m', 'a', 'c'], none⟩, turing]

/-- `mac:~/y`. -/
def words : Text := ['m', 'a', 'c', ':', '~', '/', 'y']

/-- Words for `turing` that begin with `mac:~/y` attach a file of this machine and say nothing. -/
theorem words_attach :
    machineNamed table turing.name = some turing ∧
      parse (addressed turing.name words) table ['m', 'e'] =
        .ok ⟨[(turing, [])], [], [['~', '/', 'y']], []⟩ ∧
      ¬ StaysWords table ['m', 'e'] turing turing.name words := by
  have read : parse (addressed turing.name words) table ['m', 'e'] =
      .ok ⟨[(turing, [])], [], [['~', '/', 'y']], []⟩ := by
    have first : Consumes (addressed turing.name words) ['@' :: turing.name] (' ' :: words) :=
      .next (by decide) (.done _)
    have names : List.Forall₂ (Names table) ['@' :: turing.name] [(turing, [])] := .cons rfl .nil
    refine parse_ok.mpr ⟨[(turing, [])], ' ' :: words, ⟨[], [['~', '/', 'y']]⟩, [], ?_, ?_, rfl⟩
    · rw [targets_run first names]
      apply targets_stop
      intro tok after is
      cases is
      rfl
    · have file : lead (' ' :: words) = some (words, []) := by decide
      rw [files_next file rfl]
      exact files_stop fun tok after is => nomatch is
  refine ⟨by decide, read, ?_⟩
  intro stays
  rw [StaysWords, read] at stays
  cases stays

end Khor.Post
