/-
Module: Khor.Node.Post
Purpose: The typed form of a message, read against the device table: targets first, then files on machines, then words;
  and how words for one machine are written in it.
Trusted boundary: paths are led by `/` as on Unix; of a table row only what the parser reads
Main exports: DeviceInfo, machineNamed, Draft, targets_run, parse_ok
-/
import Khor.Lib.Fallible
import Khor.Lib.Tokens

namespace Khor.Post

/-- A row of the device table: what names it and what it is told by. -/
structure DeviceInfo where
  id : Text
  name : Text
  label : Option Text
deriving DecidableEq

/-- What a person renamed it to, or its own name. -/
def DeviceInfo.shown (d : DeviceInfo) : Text :=
  match d.label with
  | some l => if trim l ≠ [] then l else d.name
  | none => d.name

inductive Refusal where
  | noSuchMachine (name : Text) (names : List Text)
  | receiveDirNotAbsolute (dir : Text)

/-- The machine a person typed: its shown name, then its name. -/
def machineNamed (machines : List DeviceInfo) (typed : Text) : Option DeviceInfo :=
  match machines.find? fun d => d.label = some typed with
  | some d => some d
  | none => machines.find? fun d => d.name = typed

def BROADCAST : Text := ['w', 'i', 'd', 'e', '/', 'a', 'l', 'l']

/-- The typed form of words for one machine. An empty machine or the broadcast's own name is nobody in particular. -/
def addressed (machine text : Text) : Text :=
  let m := trim machine
  if m = [] ∨ m = BROADCAST then text
  else if m.any isSpace then '@' :: '"' :: m ++ '"' :: ' ' :: text
  else '@' :: m ++ ' ' :: text

/-- `str::split_once(':')`. -/
def splitColon : Text → Option (Text × Text)
  | [] => none
  | ':' :: rest => some ([], rest)
  | c :: rest => (splitColon rest).map fun (front, back) => (c :: front, back)

/-- A receive directory tidied, or refused: empty, `~`, `~/…` or absolute, never with a `..` in it. -/
def tidySetting (dir : Text) : Except Refusal Text :=
  let d := trim dir
  let d := if 1 < d.length then (d.reverse.dropWhile (· = '/')).reverse else d
  if d = [] then .ok []
  else
    let led := d = ['~'] || ['~', '/'].isPrefixOf d || ['/'].isPrefixOf d
    if !led || (d.splitOn '/').any (· = ['.', '.']) then .error (.receiveDirNotAbsolute d) else .ok d

/-- `strip_prefix('@')`, where something is left. -/
def target : Text → Option Text
  | '@' :: t => if t = [] then none else some t
  | _ => none

/-- What a token says as a target: none when it is not one, else its machine and directory or a refusal. -/
def resolve (machines : List DeviceInfo) (tok : Text) : Option (Except Refusal (DeviceInfo × Text)) :=
  (target tok).map fun t =>
    let (name, path) := (splitColon t).getD (t, [])
    match machineNamed machines name with
    | none => .error (.noSuchMachine name (machines.map DeviceInfo.shown))
    | some m =>
        match tidySetting path with
        | .error e => .error e
        | .ok path => .ok (m, path)

/-- A target is kept the first time it is named. -/
def keep (kept : List (DeviceInfo × Text)) (t : DeviceInfo × Text) : List (DeviceInfo × Text) :=
  if kept.any fun (m, _) => m.id = t.1.id then kept else kept ++ [t]

/-- The loop over the targets. -/
def targets (machines : List DeviceInfo) (kept : List (DeviceInfo × Text)) (rest : Text) :
    Except Refusal (List (DeviceInfo × Text) × Text) :=
  match _ : lead rest with
  | none => .ok (kept, rest)
  | some (tok, after) =>
      match resolve machines tok with
      | none => .ok (kept, rest)
      | some (.error e) => .error e
      | some (.ok t) => targets machines (keep kept t) after
termination_by rest.length
decreasing_by exact lead_shorter ‹_›

/-- `machine:path`, both there. -/
def file (tok : Text) : Option (Text × Text) :=
  (splitColon tok).filter fun (n, p) => n ≠ [] && p ≠ []

/-- A token that is a file on a machine of the table. -/
def fileOn (machines : List DeviceInfo) (tok : Text) : Option (DeviceInfo × Text) :=
  (file tok).bind fun (name, path) => (machineNamed machines name).map fun m => (m, path)

structure Files where
  far : List (DeviceInfo × Text)
  here : List Text

/-- The loop over the files. -/
def files (machines : List DeviceInfo) (me : Text) (found : Files) (rest : Text) : Files × Text :=
  match _ : lead rest with
  | none => (found, rest)
  | some (tok, after) =>
      match fileOn machines tok with
      | none => (found, rest)
      | some (m, path) =>
          if m.id = me then files machines me { found with here := found.here ++ [path] } after
          else files machines me { found with far := found.far ++ [(m, path)] } after
termination_by rest.length
decreasing_by all_goals exact lead_shorter ‹_›

/-- What a typed message says. -/
structure Draft where
  «to» : List (DeviceInfo × Text)
  far : List (DeviceInfo × Text)
  here : List Text
  text : Text

def parse (typed : Text) (machines : List DeviceInfo) (me : Text) : Except Refusal Draft := do
  let (kept, rest) ← targets machines [] typed
  let (found, rest) := files machines me ⟨[], []⟩ rest
  .ok ⟨kept, found.far, found.here, trim rest⟩

/-! ### What the loops take -/

/-- What leading tokens name, one after another, as long as they name something. -/
def named (machines : List DeviceInfo) : List Text → List (DeviceInfo × Text)
  | [] => []
  | tok :: toks =>
      match resolve machines tok with
      | some (.ok t) => t :: named machines toks
      | _ => []

/-- Every token names a machine and a directory there. -/
def Names (machines : List DeviceInfo) (tok : Text) (t : DeviceInfo × Text) : Prop :=
  resolve machines tok = some (.ok t)

variable {machines : List DeviceInfo} {s me : Text}

/-- Tokens that are all targets are taken one by one. -/
theorem targets_run {left : Text} {toks : List Text} (run : Consumes s toks left) :
    ∀ {kept ts : List (DeviceInfo × Text)}, List.Forall₂ (Names machines) toks ts →
      targets machines kept s = targets machines (ts.foldl keep kept) left := by
  induction run with
  | done s =>
      rintro kept ts ⟨⟩
      rfl
  | next first rest ih =>
      rintro kept ts (_ | ⟨is, more⟩)
      rw [targets]
      split
      · simp_all
      · rename_i again
        rw [first] at again
        cases again
        rw [is]
        exact ih more

/-- The loop stops where the next token is none of its own. -/
theorem targets_stop {kept : List (DeviceInfo × Text)}
    (none : ∀ tok after, lead s = some (tok, after) → target tok = none) :
    targets machines kept s = .ok (kept, s) := by
  rw [targets]
  split
  · rfl
  · rename_i tok after is
    rw [resolve, none tok after is]
    rfl

/-- What the loop over the targets took and where it stopped. -/
theorem targets_ok :
    ∀ {kept kept' : List (DeviceInfo × Text)} {left : Text}, targets machines kept s = .ok (kept', left) →
      ∃ toks ts, Consumes s toks left ∧ List.Forall₂ (Names machines) toks ts ∧ kept' = ts.foldl keep kept ∧
        ∀ tok after, lead left = some (tok, after) → target tok = none := by
  induction s using tokens.induct with
  | case1 s is =>
      intro kept kept' left run
      rw [targets] at run
      split at run
      · cases run
        exact ⟨[], [], .done _, .nil, rfl, fun tok after some => by rw [is] at some; cases some⟩
      · simp_all
  | case2 s tok after is ih =>
      intro kept kept' left run
      rw [targets] at run
      split at run
      · simp_all
      · rename_i again
        rw [is] at again
        cases again
        cases told : resolve machines tok with
        | none =>
            rw [told] at run
            cases run
            refine ⟨[], [], .done _, .nil, rfl, fun tok' after' some => ?_⟩
            rw [is] at some
            cases some
            rw [resolve, Option.map_eq_none_iff] at told
            exact told
        | some answer =>
            rw [told] at run
            cases answer with
            | error e => cases run
            | ok t =>
                obtain ⟨toks, ts, rest, names, rfl, stop⟩ := ih run
                exact ⟨tok :: toks, t :: ts, .next is rest, .cons told names, rfl, stop⟩

/-- The loop over the files stops where the next token is no file on a machine. -/
theorem files_stop {found : Files} (none : ∀ tok after, lead s = some (tok, after) → fileOn machines tok = none) :
    files machines me found s = (found, s) := by
  rw [files]
  split
  · rfl
  · rename_i tok after is
    rw [none tok after is]

/-- A file is taken where it is: here, or on the machine it names. -/
theorem files_next {found : Files} {tok after : Text} {m : DeviceInfo} {path : Text}
    (first : lead s = some (tok, after)) (is : fileOn machines tok = some (m, path)) : files machines me found s =
      if m.id = me then files machines me { found with here := found.here ++ [path] } after
      else files machines me { found with far := found.far ++ [(m, path)] } after := by
  rw [files]
  split
  · simp_all
  · rename_i again
    rw [first] at again
    cases again
    rw [is]

/-- What the loop over the files took: a file for each token. -/
theorem files_took : ∀ {found found' : Files} {left : Text}, files machines me found s = (found', left) →
      ∃ toks, Consumes s toks left ∧
        found'.far.length + found'.here.length = found.far.length + found.here.length + toks.length ∧
        ∀ tok after, lead left = some (tok, after) → fileOn machines tok = none := by
  induction s using tokens.induct with
  | case1 s is =>
      intro found found' left run
      rw [files] at run
      split at run
      · cases run
        exact ⟨[], .done _, rfl, fun tok after some => by rw [is] at some; cases some⟩
      · simp_all
  | case2 s tok after is ih =>
      intro found found' left run
      cases told : fileOn machines tok with
      | none =>
          have stop : ∀ tok' after', lead s = some (tok', after') → fileOn machines tok' = none := by
            intro tok' after' some
            rw [is] at some
            cases some
            exact told
          rw [files_stop stop] at run
          cases run
          exact ⟨[], .done _, rfl, stop⟩
      | some answer =>
          obtain ⟨m, path⟩ := answer
          rw [files_next is told] at run
          split at run
          all_goals
            obtain ⟨toks, rest, count, stop⟩ := ih run
            refine ⟨tok :: toks, .next is rest, ?_, stop⟩
            simp only [List.length_append, List.length_cons, List.length_nil] at count ⊢
            omega

/-- A message that is read: its targets, then its files, then its words. -/
theorem parse_ok {typed : Text} {d : Draft} : parse typed machines me = .ok d ↔
      ∃ kept rest found left, targets machines [] typed = .ok (kept, rest) ∧
        files machines me ⟨[], []⟩ rest = (found, left) ∧ d = ⟨kept, found.far, found.here, trim left⟩ := by
  unfold parse
  constructor
  · intro run
    obtain ⟨⟨kept, rest⟩, first, is⟩ := bind_ok.mp run
    cases is
    exact ⟨kept, rest, _, _, first, rfl, rfl⟩
  · rintro ⟨kept, rest, found, left, first, second, rfl⟩
    rw [bind_of_ok _ first]
    dsimp only
    rw [second]

end Khor.Post
