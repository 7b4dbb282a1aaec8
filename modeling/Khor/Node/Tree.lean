/-
Module: Khor.Node.Tree
Purpose: What a copied directory is listed as: the spelling of a relative path, and the manifest with its checks. A list
  is accepted when it is lawful, whatever its order, and an accepted manifest has every directory in front of what is in
  it.
Trusted boundary: paths are texts; the order of their bytes is the order of their characters
Main exports: Entry, Manifest, Lawful, validate_checked, Lawful.behind
-/
import Khor.Lib.Fallible
import Mathlib

namespace Khor.Tree

abbrev Spelling := List Char
abbrev Name := List Char

def MAX_ENTRIES : Nat := 20000
def MAX_PATH_BYTES : Nat := 2 * 1024 * 1024
def MAX_DEPTH : Nat := 64

/-- `drops::CAP`. -/
def CAP : Nat := 200 * 1024 * 1024

/-- `spent` is for a loop that would go on for longer than it can: no run ends so. -/
inductive Refusal where
  | badPath (path : Spelling)
  | unspelled (dir : List Name) (bytes : List UInt8)
  | tooMany
  | tooBig
  | changed
  | notAbsolute (path : Spelling)
  | unsupported (path : List Name)
  | destExists (name : Name)
  | copyInside
  | notAFilePath (path : Spelling)
  | cancelled
  | io
  | spent
deriving DecidableEq

structure Entry where
  path : Spelling
  dir : Bool
  size : Nat
  at_ms : Nat
  mode : Nat
deriving DecidableEq

structure Manifest where
  entries : List Entry
  total : Nat
deriving DecidableEq

/-- `str::len`: the bytes of the text. -/
def bytesOf (s : Spelling) : Nat := (s.map Char.utf8Size).sum

/-- `split('/')`. -/
def parts (s : Spelling) : List Name := s.splitOn '/'

/-- A part that is no name. -/
def hops (part : Name) : Bool := part == [] || part == ['.'] || part == ['.', '.']

/-- A spelling is refused in front of its depth. -/
def relative (path : Spelling) : Except Refusal (List Name) :=
  if path = [] ∨ (path.any fun c => c == '\\' || c == ':' || c == Char.ofNat 0) ∨ (parts path).any hops then
    .error (.badPath path)
  else if MAX_DEPTH < (parts path).length then .error .tooMany
  else .ok (parts path)

/-- `rsplit_once('/')`. -/
def rsplitOnce : Spelling → Option (Spelling × Name)
  | [] => none
  | c :: rest =>
      match rsplitOnce rest with
      | some (parent, name) => some (c :: parent, name)
      | none => if c = '/' then some ([], rest) else none

/-- Whether a text comes no later than another. -/
def upTo : Spelling → Spelling → Bool
  | [], _ => true
  | _ :: _, [] => false
  | a :: as, b :: bs => decide (a.toNat < b.toNat) || (a == b && upTo as bs)

def sorted (entries : List Entry) : List Entry := entries.mergeSort fun a b => upTo a.path b.path

/-- Paths that were seen, each with whether it is a directory. -/
abbrev Seen := List (Spelling × Bool)

/-- The path lies in something that was not seen as a directory. -/
def orphan (seen : Seen) (path : Spelling) : Bool :=
  match rsplitOnce path with
  | some (parent, _) => seen.lookup parent != some true
  | none => false

/-- The loop of `checked`. Lengths and sizes do not go past what a `usize` and a `u64` hold. -/
def audit : Seen → Nat → Nat → List Entry → Except Refusal Nat
  | _, total, _, [] => .ok total
  | seen, total, spelling, e :: rest => do
      let _ ← relative e.path
      if MAX_PATH_BYTES < min (spelling + bytesOf e.path) (2 ^ 64 - 1) ∨ (seen.lookup e.path).isSome then
        .error (.badPath e.path)
      else if e.dir ∧ e.size ≠ 0 then .error (.badPath e.path)
      else if orphan ((e.path, e.dir) :: seen) e.path then .error (.badPath e.path)
      else if 2 ^ 64 ≤ total + e.size ∨ CAP < total + e.size then .error .tooBig
      else
        audit ((e.path, e.dir) :: seen) (total + e.size) (min (spelling + bytesOf e.path) (2 ^ 64 - 1)) rest

def checked (entries : List Entry) : Except Refusal Manifest :=
  if MAX_ENTRIES < entries.length then .error .tooMany
  else do
    let total ← audit [] 0 0 (sorted entries)
    .ok ⟨sorted entries, total⟩

def validate (m : Manifest) : Except Refusal Unit := do
  let other ← checked m.entries
  if other ≠ m then .error .changed else .ok ()

/-! ### The order of the paths -/

theorem upTo_trans : ∀ {a b c : Spelling}, upTo a b = true → upTo b c = true → upTo a c = true
  | [], _, _, _, _ => rfl
  | a :: as, b :: bs, c :: cs, ab, bc => by
      simp only [upTo, Bool.or_eq_true, decide_eq_true_eq, Bool.and_eq_true, beq_iff_eq] at ab bc ⊢
      rcases ab with ab | ⟨rfl, ab⟩
      · rcases bc with bc | ⟨rfl, _⟩
        · exact .inl (by omega)
        · exact .inl ab
      · rcases bc with bc | ⟨rfl, bc⟩
        · exact .inl bc
        · exact .inr ⟨rfl, upTo_trans ab bc⟩

theorem toNat_inj {a b : Char} (same : a.toNat = b.toNat) : a = b := Char.ext (UInt32.toNat_inj.mp same)

theorem upTo_total : ∀ a b : Spelling, (upTo a b || upTo b a) = true
  | [], _ | _ :: _, [] => rfl
  | a :: as, b :: bs => by
      simp only [upTo, Bool.or_eq_true, decide_eq_true_eq, Bool.and_eq_true, beq_iff_eq]
      rcases Nat.lt_trichotomy a.toNat b.toNat with less | same | more
      · exact .inl (.inl less)
      · obtain rfl := toNat_inj same
        rcases Bool.or_eq_true _ _ ▸ upTo_total as bs with h | h
        · exact .inl (.inr ⟨rfl, h⟩)
        · exact .inr (.inr ⟨rfl, h⟩)
      · exact .inr (.inl more)

/-- A text comes in front of every text it begins, and not the other way round. -/
theorem not_upTo_append : ∀ (s : Spelling) {t : Spelling}, t ≠ [] → upTo (s ++ t) s = false
  | [], t, more => by
      cases t with
      | nil => exact absurd rfl more
      | cons c t => rfl
  | a :: s, t, more => by simp [upTo, not_upTo_append s more]

theorem sorted_perm (es : List Entry) : (sorted es).Perm es := List.mergeSort_perm es _

theorem sorted_ordered (es : List Entry) : (sorted es).Pairwise fun a b => upTo a.path b.path = true :=
  @List.pairwise_mergeSort _ (fun a b => upTo a.path b.path) (fun _ _ _ => upTo_trans)
    (fun a b => upTo_total a.path b.path) es

theorem sorted_sorted (es : List Entry) : sorted (sorted es) = sorted es :=
  List.mergeSort_of_pairwise (sorted_ordered es)

/-! ### Spellings -/

theorem rsplitOnce_none : ∀ {s : Spelling}, rsplitOnce s = none ↔ '/' ∉ s
  | [] => by simp [rsplitOnce]
  | c :: rest => by
      have tail := rsplitOnce_none (s := rest)
      cases split : rsplitOnce rest with
      | some found =>
          have there : ¬ '/' ∉ rest := fun plain => nomatch (tail.mpr plain).symm.trans split
          simp [rsplitOnce, split, Decidable.not_not.mp there]
      | none =>
          have plain := tail.mp split
          by_cases is : c = '/'
          · simp [rsplitOnce, split, is]
          · simp [rsplitOnce, split, is, plain, Ne.symm is]

theorem rsplitOnce_some : ∀ {s parent : Spelling} {name : Name},
    rsplitOnce s = some (parent, name) ↔ s = parent ++ '/' :: name ∧ '/' ∉ name
  | [], parent, name => by simp [rsplitOnce]
  | c :: rest, parent, name => by
      cases split : rsplitOnce rest with
      | some found =>
          obtain ⟨parent', name'⟩ := found
          obtain ⟨same, plain⟩ := rsplitOnce_some.mp split
          have whole : rsplitOnce (c :: rest) = some (c :: parent', name') := by simp [rsplitOnce, split]
          rw [whole]
          constructor
          · intro h
            cases h
            exact ⟨by rw [same]; rfl, plain⟩
          · rintro ⟨is, plain'⟩
            cases parent with
            | nil =>
                -- the name would hold the slash that was found in the rest
                obtain ⟨rfl, rfl⟩ := List.cons.inj is
                exact absurd (by simp [same]) plain'
            | cons d parent =>
                obtain ⟨rfl, tail⟩ := List.cons.inj is
                have := rsplitOnce_some.mpr ⟨tail, plain'⟩
                cases split.symm.trans this
                rfl
      | none =>
          have plain := rsplitOnce_none.mp split
          constructor
          · intro h
            by_cases is : c = '/'
            · simp only [rsplitOnce, split, is, if_true] at h
              cases h
              exact ⟨by rw [is]; rfl, plain⟩
            · simp only [rsplitOnce, split, if_neg is] at h
              cases h
          · rintro ⟨is, -⟩
            cases parent with
            | nil =>
                obtain ⟨rfl, rfl⟩ := List.cons.inj is
                simp [rsplitOnce, split]
            | cons d parent =>
                obtain ⟨rfl, rfl⟩ := List.cons.inj is
                exact absurd (by simp) plain

variable {path : Spelling} {es es' : List Entry} {m : Manifest} {e : Entry}

theorem relative_ok {names : List Name} (is : relative path = .ok names) :
    names = parts path ∧ path ≠ [] ∧ (∀ c ∈ path, c ≠ '\\' ∧ c ≠ ':' ∧ c ≠ Char.ofNat 0) ∧
      (∀ part ∈ parts path, hops part = false) ∧ (parts path).length ≤ MAX_DEPTH := by
  unfold relative at is
  split at is
  · cases is
  · rename_i fine
    split at is
    · cases is
    · rename_i shallow
      cases is
      simp only [not_or, List.any_eq_true, not_exists, not_and, Bool.or_eq_true, beq_iff_eq] at fine
      obtain ⟨some, chars, names⟩ := fine
      refine ⟨rfl, some, fun c is => ?_, fun part is => by simpa using names part is, Nat.le_of_not_lt shallow⟩
      obtain ⟨⟨slash, colon⟩, null⟩ := chars c is
      exact ⟨slash, colon, null⟩

/-! ### What is accepted -/

def spelled (es : List Entry) : Nat := (es.map fun e => bytesOf e.path).sum

def weight (es : List Entry) : Nat := (es.map (·.size)).sum

/-- What a list of entries has to be, in any order. -/
structure Lawful (es : List Entry) : Prop where
  plain : ∀ e ∈ es, ∃ names, relative e.path = .ok names
  short : spelled es ≤ MAX_PATH_BYTES
  distinct : (es.map (·.path)).Nodup
  hollow : ∀ e ∈ es, e.dir = true → e.size = 0
  parented : ∀ e ∈ es, ∀ parent name, rsplitOnce e.path = some (parent, name) →
    ∃ d ∈ es, d.path = parent ∧ d.dir = true
  light : weight es ≤ CAP

theorem spelled_perm (same : es.Perm es') : spelled es = spelled es' := (same.map _).sum_nat

theorem weight_perm (same : es.Perm es') : weight es = weight es' := (same.map _).sum_nat

theorem Lawful.perm (law : Lawful es) (same : es.Perm es') : Lawful es' where
  plain e is := law.plain e (same.mem_iff.mpr is)
  short := spelled_perm same ▸ law.short
  distinct := (same.map _).nodup law.distinct
  hollow e is := law.hollow e (same.mem_iff.mpr is)
  parented e is parent name split := by
    obtain ⟨d, there, rest⟩ := law.parented e (same.mem_iff.mpr is) parent name split
    exact ⟨d, same.mem_iff.mp there, rest⟩
  light := weight_perm same ▸ law.light

/-- The entries a loop of `checked` has gone through, the last one first. -/
def marks (es : List Entry) : Seen := es.map fun e => (e.path, e.dir)

theorem lookup_isSome : ((marks es).lookup path).isSome = true ↔ path ∈ es.map (·.path) := by
  induction es with
  | nil => simp [marks]
  | cons e es ih =>
      simp only [marks, List.map_cons, List.lookup_cons, List.mem_cons] at ih ⊢
      by_cases is : path = e.path
      · simp [is]
      · rw [beq_eq_false_iff_ne.mpr is]
        simpa [is] using ih

theorem lookup_some (distinct : (es.map (·.path)).Nodup) {dir : Bool} :
    (marks es).lookup path = some dir ↔ ∃ e ∈ es, e.path = path ∧ e.dir = dir := by
  induction es with
  | nil => simp [marks]
  | cons e es ih =>
      obtain ⟨new, distinct⟩ := List.nodup_cons.mp distinct
      simp only [marks, List.map_cons, List.lookup_cons] at ih ⊢
      by_cases is : path = e.path
      · subst is
        have other : ∀ d ∈ es, d.path ≠ e.path := fun d there same => new (List.mem_map.mpr ⟨d, there, same⟩)
        simp only [BEq.rfl, Option.some.injEq, List.mem_cons, exists_eq_or_imp, true_and]
        constructor
        · exact .inl
        · rintro (same | ⟨d, there, same, _⟩)
          · exact same
          · exact absurd same (other d there)
      · rw [beq_eq_false_iff_ne.mpr is]
        simp only [ih distinct, List.mem_cons, exists_eq_or_imp]
        constructor
        · exact .inr
        · rintro (⟨same, _⟩ | found)
          · exact absurd same.symm is
          · exact found

/-- The parent of a path is shorter. -/
theorem parent_ne {parent : Spelling} {name : Name} (split : rsplitOnce path = some (parent, name)) :
    upTo path parent = false ∧ parent ≠ path := by
  obtain ⟨rfl, -⟩ := rsplitOnce_some.mp split
  refine ⟨not_upTo_append parent (List.cons_ne_nil _ _), fun same => ?_⟩
  have := congrArg List.length same
  simp at this

theorem orphan_false (distinct : (es.map (·.path)).Nodup) : orphan (marks es) path = false ↔
      ∀ parent name, rsplitOnce path = some (parent, name) → ∃ d ∈ es, d.path = parent ∧ d.dir = true := by
  unfold orphan
  cases split : rsplitOnce path with
  | none => simp
  | some found =>
      obtain ⟨parent, name⟩ := found
      simp only [bne_eq_false_iff_eq, lookup_some distinct, Option.some.injEq, Prod.mk.injEq, and_imp]
      constructor
      · rintro found parent' name' rfl rfl
        exact found
      · intro found
        exact found parent name rfl rfl

/-- **A lawful list goes through in the order of its paths**: nothing that is still to come holds the next entry. -/
theorem audit_of_lawful : ∀ {es done : List Entry}, Lawful (done ++ es) →
    es.Pairwise (fun a b => upTo a.path b.path = true) →
    audit (marks done) (weight done) (spelled done) es = .ok (weight (done ++ es))
  | [], done, _, _ => by simp [audit]
  | e :: rest, done, law, order => by
      have moved : (done ++ e :: rest).Perm (e :: done ++ rest) := List.perm_middle
      have law' := law.perm moved
      obtain ⟨first, order⟩ := List.pairwise_cons.mp order
      obtain ⟨names, plain⟩ := law'.plain e (by simp)
      have spelling : spelled (e :: done) ≤ MAX_PATH_BYTES := by
        have := law'.short
        simp only [spelled, List.map_append, List.sum_append] at this ⊢
        omega
      have size : weight (e :: done) ≤ CAP := by
        have := law'.light
        simp only [weight, List.map_append, List.sum_append] at this ⊢
        omega
      have distinct : ((e :: done).map (·.path)).Nodup := by
        have := law'.distinct
        rw [List.map_append] at this
        exact (List.nodup_append.mp this).1
      have new : ¬ ((marks done).lookup e.path).isSome = true := by
        rw [lookup_isSome]
        exact (List.nodup_cons.mp distinct).1
      have held : orphan (marks (e :: done)) e.path = false := by
        refine (orphan_false distinct).mpr fun parent name split => ?_
        obtain ⟨d, there, is, dir⟩ := law'.parented e (by simp) parent name split
        refine ⟨d, ?_, is, dir⟩
        rcases List.mem_append.mp there with before | after
        · exact before
        · have := first d after
          rw [is, (parent_ne split).1] at this
          cases this
      have sum : spelled (e :: done) = spelled done + bytesOf e.path := by simp [spelled, Nat.add_comm]
      have total : weight (e :: done) = weight done + e.size := by simp [weight, Nat.add_comm]
      have room : min (spelled done + bytesOf e.path) (2 ^ 64 - 1) = spelled (e :: done) := by
        rw [← sum]
        unfold MAX_PATH_BYTES at spelling
        omega
      have fits : ¬ (2 ^ 64 ≤ weight done + e.size ∨ CAP < weight done + e.size) := by
        rw [← total]
        unfold CAP at *
        omega
      have empty : ¬ (e.dir = true ∧ e.size ≠ 0) := fun ⟨dir, full⟩ => full (law'.hollow e (by simp) dir)
      have past : ¬ (MAX_PATH_BYTES < spelled (e :: done) ∨ ((marks done).lookup e.path).isSome = true) := by
        rintro (long | seen)
        · omega
        · exact new seen
      rw [audit, bind_of_ok _ plain, room, if_neg past, if_neg empty]
      have held' : ¬ orphan ((e.path, e.dir) :: marks done) e.path = true := by
        rw [show (e.path, e.dir) :: marks done = marks (e :: done) from rfl, held]
        exact Bool.false_ne_true
      rw [if_neg held', if_neg fits, ← total]
      have := @audit_of_lawful _ (e :: done) law' order
      rw [show (e.path, e.dir) :: marks done = marks (e :: done) from rfl, this]
      exact congrArg Except.ok (weight_perm moved).symm

theorem Lawful.nil : Lawful [] where
  plain := by simp
  short := by decide
  distinct := by simp
  hollow := by simp
  parented := by simp
  light := by decide

theorem lawful_of_audit : ∀ {es done : List Entry} {total : Nat}, Lawful done →
    audit (marks done) (weight done) (spelled done) es = .ok total → Lawful (done ++ es) ∧ total = weight (done ++ es)
  | [], done, total, law, is => by
      rw [audit] at is
      cases is
      rw [List.append_nil]
      exact ⟨law, rfl⟩
  | e :: rest, done, total, law, is => by
      rw [audit] at is
      obtain ⟨names, plain, is⟩ := bind_ok.mp is
      split at is
      · cases is
      rename_i past
      split at is
      · cases is
      rename_i hollow
      split at is
      · cases is
      rename_i held
      split at is
      · cases is
      rename_i fits
      simp only [not_or, Nat.not_lt, Nat.not_le] at past fits
      obtain ⟨short, new⟩ := past
      have distinct : ((e :: done).map (·.path)).Nodup := by
        rw [lookup_isSome] at new
        exact List.nodup_cons.mpr ⟨new, law.distinct⟩
      have spelling : min (spelled done + bytesOf e.path) (2 ^ 64 - 1) = spelled (e :: done) := by
        have sum : spelled (e :: done) = spelled done + bytesOf e.path := by simp [spelled, Nat.add_comm]
        unfold MAX_PATH_BYTES at short
        omega
      have size : weight done + e.size = weight (e :: done) := by simp [weight, Nat.add_comm]
      have law' : Lawful (e :: done) :=
        { plain := fun d there => by
            rcases List.mem_cons.mp there with rfl | before
            · exact ⟨names, plain⟩
            · exact law.plain d before
          short := spelling ▸ short
          distinct := distinct
          hollow := fun d there dir => by
            rcases List.mem_cons.mp there with rfl | before
            · exact Decidable.not_not.mp fun full => hollow ⟨dir, full⟩
            · exact law.hollow d before dir
          parented := fun d there parent name split => by
            rcases List.mem_cons.mp there with rfl | before
            · exact (orphan_false distinct).mp (Bool.eq_false_iff.mpr held) parent name split
            · obtain ⟨p, there, rest⟩ := law.parented d before parent name split
              exact ⟨p, .tail _ there, rest⟩
          light := size ▸ fits.2 }
      rw [spelling, size] at is
      obtain ⟨lawful, sum⟩ := @lawful_of_audit _ (e :: done) _ law' is
      have moved : (e :: done ++ rest).Perm (done ++ e :: rest) := List.perm_middle.symm
      exact ⟨lawful.perm moved, sum.trans (weight_perm moved)⟩

/-- **A list is accepted when it is lawful, in whatever order it comes.** -/
theorem checked_iff : checked es = .ok m ↔ es.length ≤ MAX_ENTRIES ∧ Lawful es ∧ m = ⟨sorted es, weight es⟩ := by
  unfold checked
  split
  · rename_i many
    exact ⟨(nomatch ·), fun ⟨few, _⟩ => absurd few (Nat.not_le_of_lt many)⟩
  · rename_i few
    constructor
    · intro is
      obtain ⟨total, goes, is⟩ := bind_ok.mp is
      cases is
      obtain ⟨law, rfl⟩ := @lawful_of_audit _ [] _ Lawful.nil goes
      exact ⟨Nat.le_of_not_lt few, law.perm (sorted_perm es), by rw [List.nil_append, weight_perm (sorted_perm es)]⟩
    · rintro ⟨-, law, rfl⟩
      have goes : audit [] 0 0 (sorted es) = .ok (weight (sorted es)) :=
        @audit_of_lawful _ [] (law.perm (sorted_perm es).symm) (sorted_ordered es)
      rw [weight_perm (sorted_perm es)] at goes
      exact bind_of_ok _ goes

/-- What was accepted is accepted again, as it is. -/
theorem validate_checked (is : checked es = .ok m) : checked m.entries = .ok m ∧ validate m = .ok () := by
  obtain ⟨few, law, rfl⟩ := checked_iff.mp is
  have perm := sorted_perm es
  have again : checked (sorted es) = .ok ⟨sorted es, weight es⟩ := by
    refine checked_iff.mpr ⟨perm.length_eq ▸ few, law.perm perm.symm, ?_⟩
    rw [sorted_sorted, weight_perm perm]
  refine ⟨again, ?_⟩
  unfold validate
  rw [bind_of_ok _ again, if_neg (fun other => other rfl)]

theorem validate_ok : validate m = .ok () ↔ checked m.entries = .ok m := by
  constructor
  · intro is
    obtain ⟨other, again, is⟩ := bind_ok.mp is
    split at is
    · cases is
    · rename_i same
      rw [Decidable.not_not.mp same] at again
      exact again
  · intro is
    exact (validate_checked is).2

/-! ### What an accepted manifest is -/

/-- Everything above an entry is listed, as a directory. -/
theorem Lawful.ancestor (law : Lawful es) :
    ∀ (below : Spelling) {e : Entry} {above : Spelling}, e ∈ es → e.path = above ++ '/' :: below →
      ∃ d ∈ es, d.path = above ∧ d.dir = true
  | below, e, above, there, is => by
      cases split : rsplitOnce below with
      | none =>
          exact law.parented e there above below (rsplitOnce_some.mpr ⟨is, rsplitOnce_none.mp split⟩)
      | some found =>
          obtain ⟨middle, name⟩ := found
          obtain ⟨same, plain⟩ := rsplitOnce_some.mp split
          have is' : e.path = (above ++ '/' :: middle) ++ '/' :: name := by rw [is, same]; simp
          obtain ⟨d, there, is, -⟩ := law.parented e there _ name (rsplitOnce_some.mpr ⟨is', plain⟩)
          have shorter : middle.length < below.length := by rw [same]; simp
          exact law.ancestor middle there is
  termination_by below => below.length

theorem Lawful.unique (law : Lawful es) {d : Entry} (there : d ∈ es) (here : e ∈ es) (same : d.path = e.path) :
    d = e := List.inj_on_of_nodup_map law.distinct there here same

/-- Nothing lies in what is no directory. -/
theorem Lawful.under (law : Lawful es) {d : Entry} (there : d ∈ es) (here : e ∈ es) {below : Spelling}
    (is : e.path = d.path ++ '/' :: below) : d.dir = true := by
  obtain ⟨d', there', same, dir⟩ := law.ancestor below here is
  exact law.unique there' there same ▸ dir

/-- In the order of the manifest every directory stands in front of what is in it. -/
theorem Lawful.behind {pre post : List Entry} (law : Lawful es) (split : sorted es = pre ++ e :: post)
    {above below : Spelling} (is : e.path = above ++ '/' :: below) : ∃ d ∈ pre, d.path = above ∧ d.dir = true := by
  have mem : ∀ {d}, d ∈ es ↔ d ∈ pre ++ e :: post := fun {d} => split ▸ (sorted_perm es).mem_iff.symm
  obtain ⟨d, there, same, dir⟩ := law.ancestor below (mem.mpr (by simp)) is
  refine ⟨d, ?_, same, dir⟩
  have later : upTo e.path d.path = false := by
    rw [is, same]
    exact not_upTo_append above (List.cons_ne_nil _ _)
  rcases List.mem_append.mp (mem.mp there) with before | after
  · exact before
  · have order := split ▸ sorted_ordered es
    have := (List.pairwise_append.mp order).2.1
    rcases List.mem_cons.mp after with rfl | after
    · have := upTo_total d.path d.path
      rw [Bool.or_self, later] at this
      cases this
    · have := (List.pairwise_cons.mp this).1 d after
      rw [later] at this
      cases this

/-! ### Joining -/

/-- A component of a path taken from where one is: the way a path is resolved. -/
def hop (at_ : List Name) (part : Name) : List Name :=
  if part = [] ∨ part = ['.'] then at_
  else if part = ['.', '.'] then at_.dropLast
  else at_ ++ [part]

/-- `Path::join` resolved: an absolute path replaces the root. -/
def joined (root : List Name) (path : Spelling) : List Name :=
  (parts path).foldl hop (if path.head? = some '/' then [] else root)

theorem foldl_hop (root : List Name) : ∀ {names : List Name}, (∀ part ∈ names, hops part = false) →
    names.foldl hop root = root ++ names
  | [], _ => by simp
  | name :: names, plain => by
      have first : hops name = false := plain name (by simp)
      simp only [hops, Bool.or_eq_false_iff, beq_eq_false_iff_ne] at first
      have step : hop root name = root ++ [name] := by simp [hop, first]
      rw [List.foldl_cons, step, foldl_hop _ fun part there => plain part (by simp [there])]
      simp

/-- A path that is let through stays under every root it is joined to. -/
theorem joined_under {names : List Name} (is : relative path = .ok names) (root : List Name) :
    joined root path = root ++ names ∧ names ≠ [] := by
  obtain ⟨rfl, some, -, plain, -⟩ := relative_ok is
  have open_ : ¬ path.head? = Option.some '/' := by
    intro slash
    obtain ⟨rest, rfl⟩ := List.head?_eq_some_iff.mp slash
    have := plain [] (by simp [parts, List.splitOn_cons_eq_if_modifyHead])
    cases this
  refine ⟨?_, List.splitOn_ne_nil _ _⟩
  rw [joined, if_neg open_, foldl_hop _ plain]

end Khor.Tree
