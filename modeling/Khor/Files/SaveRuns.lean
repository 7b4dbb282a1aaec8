/-
Module: Khor.Files.SaveRuns
Purpose: In every run that meets the condition the saves of a file form a chain and nothing else about a file changes.
Trusted boundary: none
Main exports: partName_inj, Inv, Inv.step, saves_form_chains, saves_overwritten
-/
import Khor.Files.Save

namespace Khor.Files

variable {n : Nat}

/-- Temporaries tell apart their numbers. -/
theorem partName_inj {name name' : String} {pid pid' n' : Nat} (same : partName name pid n = partName name' pid' n') :
    n = n' := by
  have marks : ∀ d < 16, '-' ≠ d.digitChar := by decide
  have reads : ∀ (front : String) (n : Nat), (front ++ "-" ++ toString n).toList.reverse =
      (Nat.toDigits 10 n).reverse ++ '-' :: front.toList.reverse := by
    intro front n
    have dash : "-".toList = ['-'] := rfl
    have digits : (toString n).toList = Nat.toDigits 10 n := Nat.toList_repr
    rw [String.toList_append, String.toList_append, dash, digits, List.reverse_append, List.reverse_append,
      List.reverse_singleton, List.singleton_append]
  have lists : (Nat.toDigits 10 n).reverse ++ '-' :: (".khor-save-" ++ name ++ "." ++ toString pid).toList.reverse =
      (Nat.toDigits 10 n').reverse ++ '-' :: (".khor-save-" ++ name' ++ "." ++ toString pid').toList.reverse := by
    rw [← reads, ← reads]
    exact congrArg (fun s : String => s.toList.reverse) same
  have digits := (cut_at_mark (by simpa using notMem_toDigits (by omega) (by omega) marks _)
    (by simpa using notMem_toDigits (by omega) (by omega) marks _) lists).1
  exact toDigits_inj (by omega) (by omega) (List.reverse_injective digits)

section Saves

variable {Attr : Type} {h : Host Attr}

variable {path : List String} {p q : Place} {w w' : World Attr} {c : Call} {i ino : Nat} {phase old : Phase}
  {disk : Tree Attr}

theorem own_some (is : h.own path = some p) : (parent path).bind h.real = some p.1 ∧ fileName path = some p.2 := by
  unfold Host.own at is
  split at is
  · rename_i dir name there named
    cases is
    exact ⟨there, named⟩
  · cases is

theorem own_part (is : h.own (w.part c n) = some q) :
    q.2 = partName ((fileName (components c.path)).getD "") w.pid n := by
  have named := (own_some is).2
  unfold fileName World.part at named
  rw [List.getLast?_concat, Option.filter_eq_some_iff] at named
  exact (Option.some.inj named.1).symm

/-- The name that is opened, where it is not a link. -/
theorem look_own {d : Tree Attr} (is : h.own path = some p) (fuel : Nat) : h.look d (fuel + 1) path =
      match d.names p with
      | some (.link target) => h.look d fuel target
      | some (.file ino) => .file ino
      | some .dir => .other
      | none => .free p := by
  unfold Host.look
  rw [is]
  cases fuel <;> rfl

/-! ### Chains -/

theorem Chain.append {digest : Bytes → String} {first last : Option Bytes} {cs : List Call}
    (chain : Chain digest first cs last) {c : Call}
    (next : (last = none → c.was = "") ∧ ∀ b, last = some b → c.was = digest b) :
    Chain digest first (cs ++ [c]) (some c.bytes) := by
  induction cs generalizing first with
  | nil =>
      obtain rfl : last = first := by cases first <;> exact chain
      cases last with
      | none => exact ⟨next.1 rfl, rfl⟩
      | some b => exact ⟨next.2 b rfl, rfl⟩
  | cons c' cs ih =>
      cases first with
      | none | some => exact ⟨chain.1, ih chain.2⟩

theorem Chain.none {digest : Bytes → String} {first : Option Bytes} {cs : List Call}
    (chain : Chain digest first cs none) : cs = [] := by
  induction cs generalizing first with
  | nil => rfl
  | cons c cs ih =>
      have rest : Chain digest (some c.bytes) cs Option.none := by cases first <;> exact chain.2
      have := ih rest
      subst this
      cases rest

/-! ### The invariant -/

/-- The disk under the name is what the writer last read. -/
def Fresh (h : Host Attr) (d : Tree Attr) (p : Place) (c : Call) : Prop :=
  (d.names p = none → c.was = "") ∧ ∀ b, d.text p = some b → c.was = h.digest b

/-- What the calls hold, and the numbers they have drawn. -/
structure Claims (w : World Attr) : Prop where
  held : ∀ i phase c, w.calls i = some phase → phase.holds = some c → w.held (components c.path) = true
  apart : ∀ i j phase phase' c c', w.calls i = some phase → w.calls j = some phase' → phase.holds = some c →
    phase'.holds = some c' → components c.path = components c'.path → i = j
  numbers : ∀ i phase c n, w.calls i = some phase → phase.number = some (c, n) → n < w.counter
  numbersApart : ∀ i j phase phase' c c' n, w.calls i = some phase → w.calls j = some phase' →
    phase.number = some (c, n) → phase'.number = some (c', n) → i = j

structure Inv (h : Host Attr) (disk : Tree Attr) (w : World Attr) : Prop extends Saved h disk w, Claims w where
  temporaries : ∀ q ∈ w.drafts, w.disk.Plain h.fresh q
  drafted : ∀ i phase c n ino, w.calls i = some phase → phase.draft = some (c, n, ino) →
    ∃ q ∈ w.drafts, h.own (w.part c n) = some q ∧ w.disk.names q = some (.file ino)
  whole : ∀ i c n ino, w.calls i = some (.written c n ino) → (w.disk.files ino).data = c.bytes
  passed : ∀ i phase c p, w.calls i = some phase → phase.passed = some c → h.own (components c.path) = some p →
    p ∉ w.drafts ∧ Fresh h w.disk p c
  placed : ∀ i c, w.calls i = some (.landed c) → ∃ p, h.own (components c.path) = some p ∧ ⟨i, p, c⟩ ∈ w.log

/-- No call gets further in what it holds, and none draws a number. -/
structure Less (w w' : World Attr) : Prop where
  holds : ∀ i phase c, w'.calls i = some phase → phase.holds = some c →
    ∃ old, w.calls i = some old ∧ old.holds = some c
  number : ∀ i phase k, w'.calls i = some phase → phase.number = some k →
    ∃ old, w.calls i = some old ∧ old.number = some k

/-- No call gets further in what it has, but for its temporary. -/
structure Calm (w w' : World Attr) : Prop extends Less w w' where
  passed : ∀ i phase c, w'.calls i = some phase → phase.passed = some c →
    ∃ old, w.calls i = some old ∧ old.passed = some c
  accepted : ∀ i c answer, w'.calls i = some (.returned c (.ok answer)) → w.calls i = some (.returned c (.ok answer))
  placed : ∀ i c, w'.calls i = some (.landed c) → w.calls i = some (.landed c)
  landed : ∀ i phase, w.calls i = some phase → phase.Landed → ∃ phase', w'.calls i = some phase' ∧ phase'.Landed

theorem at_calls (w : World Attr) (i : Nat) (phase : Phase) (j : Nat) :
    (w.at i phase).calls j = if j = i then some phase else w.calls j := rfl

theorem at_cases {j : Nat} {phase' : Phase} (is : w'.calls = (w.at i phase).calls) (there : w'.calls j = some phase') :
    j = i ∧ phase' = phase ∨ j ≠ i ∧ w.calls j = some phase' := by
  rw [is, at_calls] at there
  split at there
  · rename_i same
    exact .inl ⟨same, (Option.some.inj there).symm⟩
  · rename_i ne
    exact .inr ⟨ne, there⟩

theorem Less.at (is : w'.calls = (w.at i phase).calls)
    (holds : ∀ c, phase.holds = some c → ∃ old, w.calls i = some old ∧ old.holds = some c)
    (number : ∀ k, phase.number = some k → ∃ old, w.calls i = some old ∧ old.number = some k) : Less w w' := by
  refine ⟨?_, ?_⟩
  · intro j phase' c there has
    obtain ⟨rfl, rfl⟩ | ⟨_, was⟩ := at_cases is there
    · exact holds c has
    · exact ⟨phase', was, has⟩
  · intro j phase' k there has
    obtain ⟨rfl, rfl⟩ | ⟨_, was⟩ := at_cases is there
    · exact number k has
    · exact ⟨phase', was, has⟩

/-- What the calls hold and their numbers stay apart where none gets further. -/
theorem Claims.less (claims : Claims w) (less : Less w w')
    (held : ∀ p, w.held p = true → (∃ i phase c, w'.calls i = some phase ∧ phase.holds = some c ∧
      components c.path = p) → w'.held p = true)
    (counter : w.counter ≤ w'.counter ∨ ∀ i phase, w'.calls i = some phase → phase.number = none) : Claims w' where
  held := by
    intro i phase c there has
    obtain ⟨old, was, had⟩ := less.holds i phase c there has
    exact held _ (claims.held i old c was had) ⟨i, phase, c, there, has, rfl⟩
  apart := by
    intro i j phase phase' c c' there there' has has' eq
    obtain ⟨old, was, had⟩ := less.holds i phase c there has
    obtain ⟨old', was', had'⟩ := less.holds j phase' c' there' has'
    exact claims.apart i j old old' c c' was was' had had' eq
  numbers := by
    intro i phase c n there has
    obtain ⟨old, was, had⟩ := less.number i phase _ there has
    obtain le | none_ := counter
    · exact Nat.lt_of_lt_of_le (claims.numbers i old c n was had) le
    · cases (none_ i phase there).symm.trans has
  numbersApart := by
    intro i j phase phase' c c' n there there' has has'
    obtain ⟨old, was, had⟩ := less.number i phase _ there has
    obtain ⟨old', was', had'⟩ := less.number j phase' _ there' has'
    exact claims.numbersApart i j old old' c c' n was was' had had'

/-- A call that goes on with no more than it had. -/
theorem Calm.at (is : w'.calls = (w.at i phase).calls)
    (holds : ∀ c, phase.holds = some c → ∃ old, w.calls i = some old ∧ old.holds = some c)
    (number : ∀ k, phase.number = some k → ∃ old, w.calls i = some old ∧ old.number = some k)
    (passed : ∀ c, phase.passed = some c → ∃ old, w.calls i = some old ∧ old.passed = some c)
    (open_' : ¬ phase.Landed) (open_ : ∀ old, w.calls i = some old → ¬ old.Landed) : Calm w w' := by
  refine ⟨.at is holds number, ?_, ?_, ?_, ?_⟩
  · intro j phase' c there has
    obtain ⟨rfl, rfl⟩ | ⟨_, was⟩ := at_cases is there
    · exact passed c has
    · exact ⟨phase', was, has⟩
  · intro j c answer there
    obtain ⟨rfl, ends⟩ | ⟨_, was⟩ := at_cases is there
    · exact absurd (ends ▸ trivial) open_'
    · exact was
  · intro j c there
    obtain ⟨rfl, ends⟩ | ⟨_, was⟩ := at_cases is there
    · exact absurd (ends ▸ trivial) open_'
    · exact was
  · intro j phase' there landed
    have ne : j ≠ i := fun same => open_ phase' (same ▸ there) landed
    exact ⟨phase', by rw [is, at_calls, if_neg ne]; exact there, landed⟩

/-- The same for a call that was somewhere. -/
theorem Calm.on (phase : Phase) (was : w.calls i = some old) (is : w'.calls = (w.at i phase).calls)
    (holds : ∀ c, phase.holds = some c → old.holds = some c)
    (number : ∀ k, phase.number = some k → old.number = some k)
    (passed : ∀ c, phase.passed = some c → old.passed = some c) (open_' : ¬ phase.Landed) (open_ : ¬ old.Landed) :
    Calm w w' :=
  Calm.at is (fun c has => ⟨old, was, holds c has⟩) (fun k has => ⟨old, was, number k has⟩)
    (fun c has => ⟨old, was, passed c has⟩) open_'
    fun _ is' => Option.some.inj (was.symm.trans is') ▸ open_

/-! ### Steps that leave the disk -/

/-- Neither the disk nor what took place changes. -/
theorem Inv.calm (inv : Inv h disk w) (calm : Calm w w') (same : w'.disk = w.disk) (drafts : w'.drafts = w.drafts)
    (log : w'.log = w.log)
    (held : ∀ p, w.held p = true → (∃ i phase c, w'.calls i = some phase ∧ phase.holds = some c ∧
      components c.path = p) → w'.held p = true)
    (counter : w.counter ≤ w'.counter ∨ ∀ i phase, w'.calls i = some phase → phase.number = none)
    (further : ∀ i phase d, w'.calls i = some phase → phase.draft = some d → w.calls i = some phase ∧ w'.pid = w.pid) :
    Inv h disk w' := by
  have savesOf (p : Place) : w'.savesOf p = w.savesOf p := by unfold World.savesOf; rw [log]
  exact
    { chain := by
        intro p out
        rw [savesOf, same]
        exact inv.chain p (drafts ▸ out)
      keeps := by
        intro p out
        rw [same]
        exact inv.keeps p (drafts ▸ out)
      drafts := by
        intro p mem
        rw [savesOf]
        exact inv.drafts p (drafts ▸ mem)
      accepted := by
        intro i c atMs digest is
        rw [log]
        exact inv.accepted i c atMs digest (calm.accepted i c _ is)
      stands := by
        intro l mem
        obtain ⟨phase, there, landed⟩ := inv.stands l (log ▸ mem)
        exact calm.landed l.call phase there landed
      once := by
        rw [log]
        exact inv.once
      toClaims := inv.toClaims.less calm.toLess held counter
      temporaries := by
        intro q mem
        rw [same]
        exact inv.temporaries q (drafts ▸ mem)
      drafted := by
        intro i phase c n ino there has
        obtain ⟨was, pid⟩ := further i phase _ there has
        obtain ⟨q, mem, own, named⟩ := inv.drafted i phase c n ino was has
        refine ⟨q, drafts ▸ mem, ?_, same ▸ named⟩
        unfold World.part at own ⊢
        rw [pid]
        exact own
      whole := by
        intro i c n ino there
        rw [same]
        exact inv.whole i c n ino (further i _ _ there rfl).1
      passed := by
        intro i phase c p there has own
        obtain ⟨old, was, had⟩ := calm.passed i phase c there has
        rw [same, drafts]
        exact inv.passed i old c p was had own
      placed := by
        intro i c there
        rw [log]
        exact inv.placed i c (calm.placed i c there) }

/-- A call goes on without a temporary, and what it gets is right. -/
theorem Inv.goes (inv : Inv h disk w) (phase : Phase) (is : w'.calls = (w.at i phase).calls) (same : w'.disk = w.disk)
    (drafts : w'.drafts = w.drafts) (log : w'.log = w.log) (pid : w'.pid = w.pid)
    (holds : ∀ c, phase.holds = some c → w'.held (components c.path) = true ∧ ∀ j phase' c', j ≠ i →
      w.calls j = some phase' → phase'.holds = some c' → components c'.path ≠ components c.path)
    (held : ∀ j phase' c', j ≠ i → w.calls j = some phase' → phase'.holds = some c' →
      w'.held (components c'.path) = true)
    (number : ∀ c n, phase.number = some (c, n) → n < w'.counter ∧ ∀ j phase' c', j ≠ i → w.calls j = some phase' →
      phase'.number ≠ some (c', n)) (counter : w.counter ≤ w'.counter)
    (passed : ∀ c p, phase.passed = some c → h.own (components c.path) = some p → p ∉ w.drafts ∧ Fresh h w.disk p c)
    (draft : phase.draft = none) (accepted : ∀ c atMs digest, phase = .returned c (.ok (atMs, digest)) →
      digest = h.digest c.bytes ∧ ∃ p, h.own (components c.path) = some p ∧ ⟨i, p, c⟩ ∈ w.log)
    (placed : ∀ c, phase ≠ .landed c) (landed : ∀ old, w.calls i = some old → old.Landed → phase.Landed) :
    Inv h disk w' := by
  have savesOf (p : Place) : w'.savesOf p = w.savesOf p := by unfold World.savesOf; rw [log]
  have part (c : Call) (n : Nat) : w'.part c n = w.part c n := by unfold World.part; rw [pid]
  exact
    { chain := by
        intro p out
        rw [savesOf, same]
        exact inv.chain p (drafts ▸ out)
      keeps := by
        intro p out
        rw [same]
        exact inv.keeps p (drafts ▸ out)
      drafts := by
        intro p mem
        rw [savesOf]
        exact inv.drafts p (drafts ▸ mem)
      accepted := by
        intro j c atMs digest there
        rw [log]
        obtain ⟨rfl, ends⟩ | ⟨_, was⟩ := at_cases is there
        · exact accepted c atMs digest ends.symm
        · exact inv.accepted j c atMs digest was
      stands := by
        intro l mem
        obtain ⟨old, there, had⟩ := inv.stands l (log ▸ mem)
        rw [is]
        by_cases same : l.call = i
        · exact ⟨phase, if_pos same, landed old (same ▸ there) had⟩
        · exact ⟨old, (if_neg same).trans there, had⟩
      once := by
        rw [log]
        exact inv.once
      held := by
        intro j phase' c there has
        obtain ⟨rfl, rfl⟩ | ⟨ne, was⟩ := at_cases is there
        · exact (holds c has).1
        · exact held j phase' c ne was has
      apart := by
        intro j k phase' phase'' c c' there there' has has' eq
        obtain ⟨rfl, rfl⟩ | ⟨ne, was⟩ := at_cases is there
        · obtain ⟨rfl, rfl⟩ | ⟨ne', was'⟩ := at_cases is there'
          · rfl
          · exact absurd eq.symm ((holds c has).2 k phase'' c' ne' was' has')
        · obtain ⟨rfl, rfl⟩ | ⟨ne', was'⟩ := at_cases is there'
          · exact absurd eq ((holds c' has').2 j phase' c ne was has)
          · exact inv.apart j k phase' phase'' c c' was was' has has' eq
      numbers := by
        intro j phase' c n there has
        obtain ⟨rfl, rfl⟩ | ⟨_, was⟩ := at_cases is there
        · exact (number c n has).1
        · exact Nat.lt_of_lt_of_le (inv.numbers j phase' c n was has) counter
      numbersApart := by
        intro j k phase' phase'' c c' n there there' has has'
        obtain ⟨rfl, rfl⟩ | ⟨ne, was⟩ := at_cases is there
        · obtain ⟨rfl, rfl⟩ | ⟨ne', was'⟩ := at_cases is there'
          · rfl
          · exact absurd has' ((number c n has).2 k phase'' c' ne' was')
        · obtain ⟨rfl, rfl⟩ | ⟨ne', was'⟩ := at_cases is there'
          · exact absurd has ((number c' n has').2 j phase' c ne was)
          · exact inv.numbersApart j k phase' phase'' c c' n was was' has has'
      temporaries := by
        intro q mem
        rw [same]
        exact inv.temporaries q (drafts ▸ mem)
      drafted := by
        intro j phase' c n ino there has
        rw [part, same, drafts]
        obtain ⟨rfl, rfl⟩ | ⟨_, was⟩ := at_cases is there
        · cases draft.symm.trans has
        · exact inv.drafted j phase' c n ino was has
      whole := by
        intro j c n ino there
        rw [same]
        obtain ⟨rfl, rfl⟩ | ⟨_, was⟩ := at_cases is there
        · cases draft
        · exact inv.whole j c n ino was
      passed := by
        intro j phase' c p there has own
        rw [same, drafts]
        obtain ⟨rfl, rfl⟩ | ⟨_, was⟩ := at_cases is there
        · exact passed c p has own
        · exact inv.passed j phase' c p was has own
      placed := by
        intro j c there
        rw [log]
        obtain ⟨rfl, ends⟩ | ⟨_, was⟩ := at_cases is there
        · exact absurd ends.symm (placed c)
        · exact inv.placed j c was }

/-! ### Steps of a temporary -/

theorem Inv.nothing (inv : Inv h disk w) (free : w.disk.names q = none) : disk.names q = none ∧ w.savesOf q = [] := by
  have out : q ∉ w.drafts := by
    intro mem
    obtain ⟨ino, named, _⟩ := inv.temporaries q mem
    rw [free] at named
    cases named
  have text : w.disk.text q = none := by unfold Disk.text; rw [free]
  refine ⟨?_, (text ▸ inv.chain q out).none⟩
  obtain keeps | ⟨first, _⟩ := inv.keeps q out
  · unfold Disk.Keeps at keeps
    split at keeps
    · obtain ⟨ino', named, _⟩ := keeps
      rw [free] at named
      cases named
    · exact keeps.symm.trans free
  · exact first

/-- Other calls have other temporaries. -/
theorem Inv.otherDraft (inv : Inv h disk w) {j : Nat} {phase' : Phase} {c' : Call} {n' : Nat}
    (is : w.calls i = some phase) (number : phase.number = some (c, n)) (own : h.own (w.part c n) = some q)
    (is' : w.calls j = some phase') (draft : phase'.draft = some (c', n', ino)) (ne : j ≠ i) :
    h.own (w.part c' n') ≠ some q := by
  intro own'
  have same : n' = n := partName_inj ((own_part own').symm.trans (own_part own))
  have number' : phase'.number = some (c', n') := by
    cases phase' <;> simp_all [Phase.draft, Phase.number]
  exact ne (inv.numbersApart j i phase' phase c' c n is' is (same ▸ number') number)

/-- Only the temporary of a call changes. -/
theorem Inv.drafting (inv : Inv h disk w) (calm : Calm w w') (only : w.disk.Only w'.disk q) (log : w'.log = w.log)
    (held : w'.held = w.held) (counter : w'.counter = w.counter) (pid : w'.pid = w.pid)
    (drafts : ∀ p, p ≠ q → (p ∈ w'.drafts ↔ p ∈ w.drafts))
    (before : q ∈ w.drafts ∨ w.disk.names q = none ∧ ∀ j phase c, w.calls j = some phase → phase.passed = some c →
      h.own (components c.path) ≠ some q)
    (after : q ∈ w'.drafts ∧ w'.disk.Plain h.fresh q ∨ q ∉ w'.drafts ∧ w'.disk.names q = none)
    (others : ∀ j phase, j ≠ i → w'.calls j = some phase → w.calls j = some phase ∧
      ∀ c n ino, phase.draft = some (c, n, ino) → h.own (w.part c n) ≠ some q)
    (own : ∀ phase c n ino, w'.calls i = some phase → phase.draft = some (c, n, ino) →
      q ∈ w'.drafts ∧ h.own (w.part c n) = some q ∧ w'.disk.names q = some (.file ino))
    (whole : ∀ c n ino, w'.calls i = some (.written c n ino) → (w'.disk.files ino).data = c.bytes) :
    Inv h disk w' := by
  have savesOf (p : Place) : w'.savesOf p = w.savesOf p := by unfold World.savesOf; rw [log]
  have nothing : disk.names q = none ∧ w.savesOf q = [] := by
    obtain mem | ⟨free, _⟩ := before
    · exact inv.drafts q mem
    · exact inv.nothing free
  have gone (out : q ∉ w'.drafts) : w'.disk.names q = none := by
    obtain ⟨mem, _⟩ | ⟨_, free⟩ := after
    · exact absurd mem out
    · exact free
  have part (c : Call) (n : Nat) : w'.part c n = w.part c n := by unfold World.part; rw [pid]
  exact
    { chain := by
        intro p out
        rw [savesOf]
        by_cases here : p = q
        · subst here
          have first : disk.text p = none := by unfold Disk.text; rw [nothing.1]
          have last : w'.disk.text p = none := by unfold Disk.text; rw [gone out]
          rw [nothing.2, first, last]
          exact rfl
        · rw [only.text here]
          exact inv.chain p fun mem => out ((drafts p here).mpr mem)
      keeps := by
        intro p out
        by_cases here : p = q
        · subst here
          refine .inl ?_
          unfold Disk.Keeps
          rw [nothing.1]
          exact gone out
        · have keeps := only.keeps here
          obtain kept | ⟨first, plain⟩ := inv.keeps p fun mem => out ((drafts p here).mpr mem)
          · exact .inl (kept.trans keeps)
          · exact .inr ⟨first, keeps.plain plain⟩
      drafts := by
        intro p mem
        rw [savesOf]
        by_cases here : p = q
        · exact here ▸ nothing
        · exact inv.drafts p ((drafts p here).mp mem)
      accepted := by
        intro j c atMs digest is
        rw [log]
        exact inv.accepted j c atMs digest (calm.accepted j c _ is)
      stands := by
        intro l mem
        obtain ⟨phase, there, landed⟩ := inv.stands l (log ▸ mem)
        exact calm.landed l.call phase there landed
      once := by
        rw [log]
        exact inv.once
      toClaims := inv.toClaims.less calm.toLess (fun _ had _ => held ▸ had) (.inl (Nat.le_of_eq counter.symm))
      temporaries := by
        intro p mem
        by_cases here : p = q
        · subst here
          obtain ⟨_, plain⟩ | ⟨out, _⟩ := after
          · exact plain
          · exact absurd mem out
        · exact (only.keeps here).plain (inv.temporaries p ((drafts p here).mp mem))
      drafted := by
        intro j phase c n ino there has
        rw [part]
        by_cases same : j = i
        · obtain ⟨mem, its, named⟩ := own phase c n ino (same ▸ there) has
          exact ⟨q, mem, its, named⟩
        · obtain ⟨was, other⟩ := others j phase same there
          obtain ⟨p, mem, its, named⟩ := inv.drafted j phase c n ino was has
          have ne : p ≠ q := fun eq => other c n ino has (eq ▸ its)
          exact ⟨p, (drafts p ne).mpr mem, its, (only.names p ne).trans named⟩
      whole := by
        intro j c n ino there
        by_cases same : j = i
        · exact whole c n ino (same ▸ there)
        · obtain ⟨was, other⟩ := others j _ same there
          obtain ⟨p, _, its, named⟩ := inv.drafted j _ c n ino was rfl
          have ne : p ≠ q := fun eq => other c n ino rfl (eq ▸ its)
          rw [only.files p ne ino named]
          exact inv.whole j c n ino was
      passed := by
        intro j phase c p there has its
        obtain ⟨old, was, had⟩ := calm.passed j phase c there has
        obtain ⟨out, fresh⟩ := inv.passed j old c p was had its
        have ne : p ≠ q := by
          intro eq
          obtain mem | ⟨_, none_⟩ := before
          · exact out (eq ▸ mem)
          · exact none_ j old c was had (eq ▸ its)
        refine ⟨fun mem => out ((drafts p ne).mp mem), fun free => fresh.1 ?_, fun b text => fresh.2 b ?_⟩
        · exact (only.names p ne) ▸ free
        · exact (only.text ne) ▸ text
      placed := by
        intro j c there
        rw [log]
        exact inv.placed j c (calm.placed j c there) }

/-! ### Steps of a call -/

/-- A call that goes on without a temporary, and leaves the disk. -/
theorem Inv.at (inv : Inv h disk w) (calm : Calm w (w.at i phase)) (none_ : phase.draft = none) :
    Inv h disk (w.at i phase) := by
  refine inv.calm calm rfl rfl rfl (fun _ held _ => held) (.inl (Nat.le_refl _)) ?_
  intro j phase' d there has
  rw [at_calls] at there
  split at there
  · cases there
    cases none_.symm.trans has
  · exact ⟨there, rfl⟩

theorem ask_inv (inv : Inv h disk w) (i : Nat) (c : Call) : Inv h disk (w.ask i c) := by
  unfold World.ask
  split
  · exact inv
  · rename_i new
    have new : w.calls i = none := by simpa using new
    have open_ (old : Phase) (is : w.calls i = some old) : ¬ old.Landed := nomatch new.symm.trans is
    split
    · exact inv.at (Calm.at rfl nofun nofun nofun id open_) rfl
    · exact inv.at (Calm.at rfl nofun nofun nofun id open_) rfl

/-- A refusal of a call that has the hold. -/
theorem Inv.refuse (inv : Inv h disk w) (was : w.calls i = some old) (holds : old.holds = some c)
    (open_ : ¬ old.Landed) (r : Refusal) : Inv h disk (w.at i (.refused c r)) :=
  inv.at (Calm.on _ was rfl (fun _ has => has ▸ holds) nofun nofun id open_) rfl

/-- What a call that has the hold may count on. -/
theorem Inv.others (inv : Inv h disk w) (was : w.calls i = some old) (holds : old.holds = some c) :
    w.held (components c.path) = true ∧ ∀ j phase' c', j ≠ i → w.calls j = some phase' → phase'.holds = some c' →
      components c'.path ≠ components c.path :=
  ⟨inv.held i old c was holds, fun j phase' c' ne there has eq => ne (inv.apart j i phase' old c' c there was has holds eq)⟩

/-- The check read the file under the name itself, if it is not a link. -/
theorem agrees_fresh (own : h.own (components c.path) = some p)
    (agrees : w.agrees h c (h.look w.disk LINKS (components c.path)) = true) : Fresh h w.disk p c := by
  have look := look_own (d := w.disk) own 39
  change h.look w.disk LINKS (components c.path) = _ at look
  rw [look] at agrees
  constructor
  · intro free
    rw [free] at agrees
    simpa [World.agrees] using agrees
  · intro b text
    unfold Disk.text at text
    split at text
    · rename_i ino named
      cases text
      rw [named] at agrees
      have both : c.was ≠ "" ∧ h.digest (w.disk.files ino).data = c.was := by simpa [World.agrees] using agrees
      exact both.2.symm
    · cases text

theorem check_inv (inv : Inv h disk w) (i : Nat) (fault : Option String) (meets : w.Meets h (.check i fault)) :
    Inv h disk (w.check h i fault) := by
  unfold World.check
  split
  · rename_i c is
    have refuse := inv.refuse is (c := c) rfl id
    split
    · exact refuse _
    · split
      · exact refuse _
      · exact inv
      · split
        · rename_i agrees
          split
          · have its := inv.others is (c := c) rfl
            refine inv.goes _ rfl rfl rfl rfl rfl ?_ ?_ nofun (Nat.le_refl _) ?_ rfl nofun nofun ?_
            · rintro c' ⟨⟩
              exact its
            · exact fun j phase' c' _ there has => inv.held j phase' c' there has
            · rintro c' p ⟨⟩ own
              exact ⟨meets c p is own agrees, agrees_fresh own agrees⟩
            · intro old there landed
              cases is.symm.trans there
              exact landed
          · exact refuse _
        · exact refuse _
  · exact inv

theorem hold_inv (inv : Inv h disk w) (i : Nat) : Inv h disk (w.hold i) := by
  unfold World.hold
  split
  · rename_i c is
    split
    · exact inv
    · rename_i free
      refine inv.goes (.holding c) rfl rfl rfl rfl rfl ?_ ?_ nofun (Nat.le_refl _) nofun rfl nofun nofun ?_
      · rintro c' ⟨⟩
        refine ⟨if_pos rfl, fun j phase' c' _ there has eq => ?_⟩
        exact free (eq ▸ inv.held j phase' c' there has)
      · intro j phase' c' _ there has
        dsimp only
        split
        · rfl
        · exact inv.held j phase' c' there has
      · intro old there landed
        cases is.symm.trans there
        exact landed
  · exact inv

theorem number_inv (inv : Inv h disk w) (i : Nat) : Inv h disk (w.number i) := by
  unfold World.number
  split
  · rename_i c is
    have its := inv.others is (c := c) rfl
    refine inv.goes (.numbered c w.counter) rfl rfl rfl rfl rfl ?_ ?_ ?_ (Nat.le_succ _) ?_ rfl nofun nofun ?_
    · rintro c' ⟨⟩
      exact its
    · exact fun j phase' c' _ there has => inv.held j phase' c' there has
    · rintro c' n ⟨⟩
      refine ⟨Nat.lt_succ_self _, fun j phase' c' _ there has => ?_⟩
      exact absurd (inv.numbers j phase' c' _ there has) (Nat.lt_irrefl _)
    · rintro c' p ⟨⟩ own
      exact inv.passed i _ c p is rfl own
    · intro old there landed
      cases is.symm.trans there
      exact landed
  · exact inv

theorem finish_inv (inv : Inv h disk w) (i atMs : Nat) : Inv h disk (w.finish h i atMs) := by
  have held {c : Call} {old : Phase} (is : w.calls i = some old) (has : old.holds = some c) :
      ∀ j phase' c', j ≠ i → w.calls j = some phase' → phase'.holds = some c' →
        (if components c'.path = components c.path then false else w.held (components c'.path)) = true := by
    intro j phase' c' ne there has'
    rw [if_neg ((inv.others is has).2 j phase' c' ne there has')]
    exact inv.held j phase' c' there has'
  unfold World.finish
  split
  · rename_i c is
    refine inv.goes (.returned c (.ok (atMs, h.digest c.bytes))) rfl rfl rfl rfl rfl nofun (held is rfl) nofun
      (Nat.le_refl _) nofun rfl ?_ nofun ?_
    · rintro c' atMs' digest ⟨⟩
      exact ⟨rfl, inv.placed i c is⟩
    · exact fun _ _ _ => trivial
  · rename_i c r is
    refine inv.goes (.returned c (.error r)) rfl rfl rfl rfl rfl nofun (held is rfl) nofun (Nat.le_refl _)
      nofun rfl nofun nofun ?_
    intro old there landed
    cases is.symm.trans there
    exact landed
  · exact inv

/-- A call that stays open keeps what it has. -/
theorem Calm.same (phase : Phase) (was : w.calls i = some old) (is : w'.calls = (w.at i phase).calls)
    (holds : phase.holds = old.holds) (number : phase.number = old.number) (passed : phase.passed = old.passed)
    (open_' : ¬ phase.Landed) (open_ : ¬ old.Landed) : Calm w w' :=
  Calm.on phase was is (fun _ has => holds ▸ has) (fun _ has => number ▸ has) (fun _ has => passed ▸ has) open_' open_

/-- The calls besides the one that goes on. -/
theorem Inv.besides (inv : Inv h disk w) (was : w.calls i = some old) (is : w'.calls = (w.at i phase).calls)
    (number : old.number = some (c, n)) (own : h.own (w.part c n) = some q) :
    ∀ j phase', j ≠ i → w'.calls j = some phase' → w.calls j = some phase' ∧
      ∀ c' n' ino, phase'.draft = some (c', n', ino) → h.own (w.part c' n') ≠ some q := by
  intro j phase' ne there
  rw [is, at_calls, if_neg ne] at there
  exact ⟨there, fun c' n' ino draft => inv.otherDraft was number own there draft ne⟩

/-- The path of a temporary as it is opened. -/
theorem Inv.opens (inv : Inv h disk w) (own : h.own (w.part c n) = some q)
    (meets : w.disk.names q = none ∨ q ∈ w.drafts) :
    w.disk.names q = none ∧ h.look w.disk LINKS (w.part c n) = .free q ∨
      q ∈ w.drafts ∧ ∃ ino, w.disk.names q = some (.file ino) ∧ h.look w.disk LINKS (w.part c n) = .file ino ∧
        w.disk.Lone q ino := by
  have look := look_own (d := w.disk) own 39
  change h.look w.disk LINKS (w.part c n) = _ at look
  obtain free | mem := meets
  · rw [free] at look
    exact .inl ⟨free, look⟩
  · obtain ⟨ino, named, _, lone⟩ := inv.temporaries q mem
    rw [named] at look
    exact .inr ⟨mem, ino, named, look, lone⟩

theorem look_none {d : Tree Attr} (nowhere : h.own path = none) (fuel : Nat) :
    h.look d (fuel + 1) path = .other ∨ h.look d (fuel + 1) path = .missing := by
  unfold Host.look
  rw [nowhere]
  cases fuel <;> by_cases dir : (h.real path).isSome <;> simp [dir]

theorem create_inv (inv : Inv h disk w) (i : Nat) (fault : Option String) (meets : w.Meets h (.create i fault)) :
    Inv h disk (w.create h i fault) := by
  unfold World.create
  split
  · rename_i c n is
    have part (look : h.look w.disk LINKS (w.part c n) ≠ .other ∧ h.look w.disk LINKS (w.part c n) ≠ .missing) :
        ∃ q, h.own (w.part c n) = some q := by
      cases own : h.own (w.part c n) with
      | some q => exact ⟨q, rfl⟩
      | none =>
          obtain other | missing := look_none (d := w.disk) own 39
          · exact absurd other look.1
          · exact absurd missing look.2
    split
    · exact inv.refuse is rfl id _
    · rename_i ino look
      obtain ⟨q, own⟩ := part (by rw [look]; exact ⟨nofun, nofun⟩)
      obtain ⟨_, none_⟩ := meets c n q is own
      obtain ⟨_, look'⟩ | ⟨mem, ino', named, look', lone⟩ := inv.opens own (meets c n q is own).1
      · cases look.symm.trans look'
      · obtain rfl : ino = ino' := by cases look.symm.trans look'; rfl
        refine inv.drafting (i := i) (q := q)
          (Calm.same (.opened c n ino) is rfl rfl rfl rfl id id)
          (Disk.fill_only lone []) rfl rfl rfl rfl ?_ (.inl mem) (.inl ⟨?_, ?_⟩) (inv.besides is rfl rfl own) ?_ ?_
        · intro p ne
          simp [own, ne]
        · simp [own]
        · exact Disk.fill_plain (inv.temporaries q mem) ino []
        · intro phase c' n' ino' there draft
          cases (if_pos rfl).symm.trans there
          cases draft
          exact ⟨by simp [own], own, named⟩
        · intro c' n' ino' there
          cases (if_pos rfl).symm.trans there
    · rename_i p look
      obtain ⟨q, own⟩ := part (by rw [look]; exact ⟨nofun, nofun⟩)
      obtain ⟨_, none_⟩ := meets c n q is own
      obtain ⟨free, look'⟩ | ⟨_, ino', _, look', _⟩ := inv.opens own (meets c n q is own).1
      · obtain rfl : p = q := by cases look.symm.trans look'; rfl
        refine inv.drafting (i := i) (q := p)
          (Calm.same (.opened c n w.disk.next) is rfl rfl rfl rfl id id)
          (Disk.grow_only free ⟨[], h.fresh⟩) rfl rfl rfl rfl ?_ (.inr ⟨free, none_⟩) (.inl ⟨?_, ?_⟩)
          (inv.besides is rfl rfl own) ?_ ?_
        · intro r ne
          simp [own, ne]
        · simp [own]
        · exact Disk.grow_plain w.disk p ⟨[], h.fresh⟩
        · intro phase c' n' ino' there draft
          cases (if_pos rfl).symm.trans there
          cases draft
          exact ⟨by simp [own], own, if_pos rfl⟩
        · intro c' n' ino' there
          cases (if_pos rfl).symm.trans there
      · cases look.symm.trans look'
    · exact inv
  · exact inv

/-- A call fills its own temporary. -/
theorem Inv.fills (inv : Inv h disk w) (is : w.calls i = some (.opened c n ino)) {data : Bytes}
    (phases : phase = .written c n ino ∧ data = c.bytes ∨ ∃ r, phase = .refused c r)
    (becomes : w' = { w.at i phase with disk := w.disk.fill ino data }) : Inv h disk w' := by
  obtain ⟨q, mem, own, named⟩ := inv.drafted i _ c n ino is rfl
  have lone : w.disk.Lone q ino := by
    obtain ⟨k, named', _, lone⟩ := inv.temporaries q mem
    cases named.symm.trans named'
    exact lone
  subst becomes
  have calm : Calm w { w.at i phase with disk := w.disk.fill ino data } := by
    obtain ⟨rfl, _⟩ | ⟨r, rfl⟩ := phases
    · exact Calm.same (.written c n ino) is rfl rfl rfl rfl id id
    · exact Calm.on (.refused c r) is rfl (fun _ has => has) nofun nofun id id
  refine inv.drafting (i := i) (q := q) calm (Disk.fill_only lone data) rfl rfl rfl rfl (fun _ _ => .rfl) (.inl mem)
    (.inl ⟨mem, Disk.fill_plain (inv.temporaries q mem) ino data⟩) (inv.besides is rfl rfl own) ?_ ?_
  · intro phase' c' n' ino' there draft
    cases (if_pos rfl).symm.trans there
    obtain ⟨rfl, _⟩ | ⟨r, rfl⟩ := phases
    · cases draft
      exact ⟨mem, own, named⟩
    · cases draft
  · intro c' n' ino' there
    cases (if_pos rfl).symm.trans there
    obtain ⟨same, rfl⟩ | ⟨r, same⟩ := phases
    · cases same
      exact congrArg File.data (if_pos rfl)
    · cases same

theorem write_inv (inv : Inv h disk w) (i : Nat) (fault : Option (Nat × String)) : Inv h disk (w.write i fault) := by
  unfold World.write
  split
  · rename_i c n ino is
    exact inv.fills is (.inl ⟨rfl, rfl⟩) rfl
  · rename_i c n ino k e is
    exact inv.fills is (.inr ⟨_, rfl⟩) rfl
  · exact inv

theorem Phase.passed_holds (has : phase.passed = some c) : phase.holds = some c := by
  cases phase <;> first | exact has | cases has

section

variable (inv : Inv h disk w)
include inv

/-- After a rename the saves of every file that is no temporary still form its chain. -/
theorem Inv.landed_chain (mem : q ∈ w.drafts) (out : p ∉ w.drafts) (fresh : Fresh h w.disk p c)
    (old : w.disk.names p = none ∨ w.disk.Plain h.fresh p) (text : w.disk.text q = some c.bytes) {r : Place}
    (gone : r ∉ w.drafts.filter (· ≠ q)) : Chain h.digest (disk.text r)
      (((w.log ++ [(⟨i, p, c⟩ : Landing)]).filter (·.place = r)).map Landing.c) ((w.disk.move q p).text r) := by
  have ne : q ≠ p := fun eq => out (eq ▸ mem)
  have saves : ((w.log ++ [(⟨i, p, c⟩ : Landing)]).filter (·.place = r)).map Landing.c =
      w.savesOf r ++ if r = p then [c] else [] := by
    by_cases here : r = p
    · simp [World.savesOf, List.filter_append, here]
    · simp [World.savesOf, List.filter_append, here, Ne.symm here]
  rw [saves]
  by_cases hereQ : r = q
  · subst hereQ
    have first : disk.text r = none := by unfold Disk.text; rw [(inv.drafts r mem).1]
    have last : (w.disk.move r p).text r = none := by unfold Disk.text; rw [Disk.move_free]
    rw [if_neg ne, List.append_nil, (inv.drafts r mem).2, first, last]
    exact rfl
  · have stays : r ∉ w.drafts := fun mem' => gone (by simp [mem', hereQ])
    by_cases here : r = p
    · subst here
      rw [if_pos rfl, Disk.move_text ne, text]
      refine (inv.chain r out).append ⟨fun none_ => ?_, fun b is => fresh.2 b is⟩
      obtain free | ⟨k, there, _⟩ := old
      · exact fresh.1 free
      · unfold Disk.text at none_
        rw [there] at none_
        cases none_
    · rw [if_neg here, List.append_nil, Disk.move_text_other hereQ here]
      exact inv.chain r stays

/-- After a rename all else about every file that is no temporary is as it was, or it is a new file. -/
theorem Inv.landed_keeps (mem : q ∈ w.drafts) (out : p ∉ w.drafts)
    (old : w.disk.names p = none ∨ w.disk.Plain h.fresh p) {r : Place} (gone : r ∉ w.drafts.filter (· ≠ q)) :
    disk.Keeps (w.disk.move q p) r ∨ disk.names r = none ∧ (w.disk.move q p).Plain h.fresh r := by
  have new := inv.temporaries q mem
  by_cases hereQ : r = q
  · subst hereQ
    refine .inl ?_
    unfold Disk.Keeps
    rw [(inv.drafts r mem).1]
    exact Disk.move_free w.disk r p
  · have stays : r ∉ w.drafts := fun mem' => gone (by simp [mem', hereQ])
    by_cases here : r = p
    · subst here
      have plain := Disk.move_plain (Ne.symm hereQ) new
      obtain free | there := old
      · exact .inr ⟨(inv.nothing free).1, plain⟩
      · obtain kept | ⟨first, _⟩ := inv.keeps r out
        · exact .inl (kept.trans (there.keeps plain))
        · exact .inr ⟨first, plain⟩
    · have kept := Disk.move_keeps new old hereQ here
      obtain kept' | ⟨first, plain⟩ := inv.keeps r stays
      · exact .inl (kept'.trans kept)
      · exact .inr ⟨first, kept.plain plain⟩

/-- The temporary goes over the file. -/
theorem Inv.lands (is : w.calls i = some (.written c n ino)) (part : h.own (w.part c n) = some q)
    (own : h.own (components c.path) = some p) (meets : w.Meets h (.rename i none)) {disk' : Tree Attr}
    (renamed : w.disk.rename q p = some disk') : Inv h disk
      { w.at i (.landed c) with
        disk := disk'
        drafts := w.drafts.filter (· ≠ q)
        log := w.log ++ [⟨i, p, c⟩] } := by
  obtain ⟨old, alone⟩ := meets c n ino p is own
  obtain ⟨mem, named⟩ : q ∈ w.drafts ∧ w.disk.names q = some (.file ino) := by
    obtain ⟨q', mem, part', named⟩ := inv.drafted i _ c n ino is rfl
    cases part.symm.trans part'
    exact ⟨mem, named⟩
  obtain ⟨out, fresh⟩ := inv.passed i _ c p is rfl own
  have new := inv.temporaries q mem
  obtain rfl := Disk.rename_lands (fun eq : q = p => out (eq ▸ mem)) new old renamed
  have text : w.disk.text q = some c.bytes := by
    unfold Disk.text
    rw [named]
    exact congrArg some (inv.whole i c n ino is)
  have draft (r : Place) : r ∈ w.drafts.filter (· ≠ q) ↔ r ∈ w.drafts ∧ r ≠ q := by simp
  have open_ {l : Landing} (before : l ∈ w.log) : l.call ≠ i := by
    intro eq
    obtain ⟨phase, there, landed⟩ := inv.stands l before
    cases (eq ▸ there).symm.trans is
    exact landed
  exact
    { chain := fun r gone => inv.landed_chain mem out fresh old text gone
      keeps := fun r gone => inv.landed_keeps mem out old gone
      drafts := by
        intro r mem'
        have was := ((draft r).mp mem').1
        have other : r ≠ p := fun eq => out (eq ▸ was)
        refine ⟨(inv.drafts r was).1, Eq.trans ?_ (inv.drafts r was).2⟩
        simp [World.savesOf, List.filter_append, Ne.symm other]
      accepted := by
        intro j c' atMs digest there
        obtain ⟨_, ends⟩ | ⟨_, was⟩ := at_cases rfl there
        · cases ends
        · obtain ⟨same, r, own', mem'⟩ := inv.accepted j c' atMs digest was
          exact ⟨same, r, own', List.mem_append_left _ mem'⟩
      stands := by
        intro l mem'
        obtain before | here := List.mem_append.mp mem'
        · obtain ⟨phase, there, landed⟩ := inv.stands l before
          exact ⟨phase, (if_neg (open_ before)).trans there, landed⟩
        · obtain rfl := List.mem_singleton.mp here
          exact ⟨.landed c, if_pos rfl, trivial⟩
      once := by
        rw [List.map_append]
        refine List.nodup_append.mpr ⟨inv.once, by simp, ?_⟩
        intro j before k here eq
        obtain rfl := List.mem_singleton.mp here
        obtain ⟨l, there, rfl⟩ := List.mem_map.mp before
        exact open_ there eq
      toClaims :=
        inv.toClaims.less (.at rfl (fun _ has => ⟨_, is, has⟩) nofun) (fun _ had _ => had) (.inl (Nat.le_refl _))
      temporaries := by
        intro r mem'
        obtain ⟨was, hereQ⟩ := (draft r).mp mem'
        have other : r ≠ p := fun eq => out (eq ▸ was)
        exact (Disk.move_keeps new old hereQ other).plain (inv.temporaries r was)
      drafted := by
        intro j phase' c' n' ino' there has
        obtain ⟨_, rfl⟩ | ⟨besides, was⟩ := at_cases rfl there
        · cases has
        · obtain ⟨r, mem', part', named'⟩ := inv.drafted j phase' c' n' ino' was has
          have hereQ : r ≠ q := fun eq => inv.otherDraft is rfl part was has besides (eq ▸ part')
          have other : r ≠ p := fun eq => out (eq ▸ mem')
          exact ⟨r, (draft r).mpr ⟨mem', hereQ⟩, part', by simpa [Disk.move, hereQ, other] using named'⟩
      whole := by
        intro j c' n' ino' there
        obtain ⟨_, ends⟩ | ⟨_, was⟩ := at_cases rfl there
        · cases ends
        · exact inv.whole j c' n' ino' was
      passed := by
        intro j phase' c' r there has own'
        obtain ⟨_, rfl⟩ | ⟨besides, was⟩ := at_cases rfl there
        · cases has
        · obtain ⟨stays, fresh'⟩ := inv.passed j phase' c' r was has own'
          have hereQ : r ≠ q := fun eq => stays (eq ▸ mem)
          have other : r ≠ p := by
            intro eq
            have spelled := alone j phase' c' was has (eq ▸ own')
            exact besides (inv.apart j i phase' _ c' c was is (Phase.passed_holds has) rfl spelled)
          have names : (w.disk.move q p).names r = w.disk.names r := by simp [Disk.move, hereQ, other]
          refine ⟨fun mem' => stays ((draft r).mp mem').1, fun free => fresh'.1 (names ▸ free), fun b is => ?_⟩
          exact fresh'.2 b ((Disk.move_text_other hereQ other) ▸ is)
      placed := by
        intro j c' there
        obtain ⟨rfl, ends⟩ | ⟨_, was⟩ := at_cases rfl there
        · cases ends
          exact ⟨p, own, List.mem_append_right _ (List.mem_singleton.mpr rfl)⟩
        · obtain ⟨r, own', mem'⟩ := inv.placed j c' was
          exact ⟨r, own', List.mem_append_left _ mem'⟩ }

theorem rename_inv (i : Nat) (fault : Option (Bool × String))
    (meets : w.Meets h (.rename i fault)) : Inv h disk (w.rename h i fault) := by
  unfold World.rename
  split
  · rename_i c n ino is
    split
    · rename_i q e part
      obtain ⟨q', mem, part', named⟩ := inv.drafted i _ c n ino is rfl
      cases part.symm.trans part'
      refine inv.drafting (i := i) (q := q)
        (Calm.on (.refused c (.cantSaveFile e)) is rfl (fun _ has => has) nofun nofun id id)
        (Disk.drop_only (inv.temporaries q mem)) rfl rfl rfl rfl (fun p ne => by simp [ne]) (.inl mem)
        (.inr ⟨by simp, if_pos rfl⟩) (inv.besides is rfl rfl part) ?_ ?_
      · intro phase c' n' ino' there draft
        cases (if_pos rfl).symm.trans there
        cases draft
      · intro c' n' ino' there
        cases (if_pos rfl).symm.trans there
    · exact inv.refuse is rfl id _
    · rename_i q p part own
      split
      · rename_i disk' renamed
        exact inv.lands is part own meets renamed
      · exact inv
    · exact inv
  · exact inv

theorem kill_inv (pid : Nat) (meets : w.Meets h (.kill pid)) : Inv h disk (w.kill pid) := by
  have after {i : Nat} {phase : Phase} (there : (w.kill pid).calls i = some phase) :
      ∃ old, w.calls i = some old ∧ old.kill = phase := Option.map_eq_some_iff.mp there
  have ended (old : Phase) : old.kill.holds = none ∧ old.kill.number = none ∧ old.kill.passed = none ∧
      old.kill.draft = none := by
    cases old <;> exact ⟨rfl, rfl, rfl, rfl⟩
  refine inv.calm ⟨⟨?_, ?_⟩, ?_, ?_, ?_, ?_⟩ rfl rfl rfl ?_ (.inr ?_) ?_
  · intro i phase c there has
    obtain ⟨old, _, rfl⟩ := after there
    cases (ended old).1.symm.trans has
  · intro i phase k there has
    obtain ⟨old, _, rfl⟩ := after there
    cases (ended old).2.1.symm.trans has
  · intro i phase c there has
    obtain ⟨old, _, rfl⟩ := after there
    cases (ended old).2.2.1.symm.trans has
  · intro i c answer there
    obtain ⟨old, was, killed⟩ := after there
    cases old <;> cases killed
    exact was
  · intro i c there
    obtain ⟨old, was, killed⟩ := after there
    cases old <;> cases killed
  · intro i old there landed
    refine ⟨old.kill, Option.map_eq_some_iff.mpr ⟨old, there, rfl⟩, ?_⟩
    cases old with
    | landed c => exact absurd there (meets i c)
    | returned c answer => exact landed
    | _ => exact landed.elim
  · rintro p _ ⟨i, phase, c, there, has, _⟩
    obtain ⟨old, _, rfl⟩ := after there
    cases (ended old).1.symm.trans has
  · intro i phase there
    obtain ⟨old, _, rfl⟩ := after there
    exact (ended old).2.1
  · intro i phase d there has
    obtain ⟨old, _, rfl⟩ := after there
    cases (ended old).2.2.2.symm.trans has

end

/-! ### Runs -/

theorem Inv.step {disk : Tree Attr} {w : World Attr} {e : Event} (meets : w.Meets h e) (inv : Inv h disk w) :
    Inv h disk (w.step h e) := by
  cases e with
  | ask i c => exact ask_inv inv i c
  | hold i => exact hold_inv inv i
  | check i fault => exact check_inv inv i fault meets
  | number i => exact number_inv inv i
  | create i fault => exact create_inv inv i fault meets
  | write i fault => exact write_inv inv i fault
  | rename i fault => exact rename_inv inv i fault meets
  | finish i atMs => exact finish_inv inv i atMs
  | kill pid => exact kill_inv inv pid meets

theorem start_inv (h : Host Attr) (disk : Tree Attr) (pid : Nat) : Inv h disk (.start disk pid) where
  chain := fun p _ => by cases text : disk.text p <;> exact text
  keeps := fun p _ => .inl (.refl disk p)
  drafts := fun _ mem => nomatch mem
  accepted := fun _ _ _ _ is => nomatch is
  stands := fun _ mem => nomatch mem
  once := List.nodup_nil
  held := fun _ _ _ is => nomatch is
  apart := fun _ _ _ _ _ _ is => nomatch is
  numbers := fun _ _ _ _ is => nomatch is
  numbersApart := fun _ _ _ _ _ _ _ is => nomatch is
  temporaries := fun _ mem => nomatch mem
  drafted := fun _ _ _ _ _ is => nomatch is
  whole := fun _ _ _ _ is => nomatch is
  passed := fun _ _ _ _ is => nomatch is
  placed := fun _ _ is => nomatch is

/-- In a run that meets the condition, the accepted saves of a file form a chain from its first contents, and nothing
but its contents changes. -/
theorem saves_form_chains (h : Host Attr) (disk : Tree Attr) (pid : Nat) {w : World Attr}
    (run : Runs (World.step h) (World.Meets h) (.start disk pid) w) : Saved h disk w :=
  (run.invariant Inv.step (start_inv h disk pid)).toSaved

end Saves

/-! ### Where saves are lost -/

/-- The directory `/d`, under a second name `/l` too. The attributes are permission bits. -/
def twoNames : Host Nat where
  real path := if path = ["d"] ∨ path = ["l"] then some 0 else none
  fresh := 0o644
  digest bytes := String.ofList ('#' :: bytes.map fun b => Char.ofNat b.toNat)

/-- `/d/a` with one byte, and a link `/d/b` to it. -/
def oneFile (attr : Nat) : Tree Nat where
  names p := if p = (0, "a") then some (.file 0) else if p = (0, "b") then some (.link ["d", "a"]) else none
  files _ := ⟨[48], attr⟩
  next := 1
  bound := by
    intro p ino is
    split at is
    · cases is
      decide
    · split at is <;> cases is

def saving (i : Nat) (path : String) (byte : UInt8) : List Event :=
  [.ask i ⟨path, [byte], "#0"⟩, .hold i, .check i none, .number i, .create i none, .write i none]

/-- A second save of the file asks while the first has the hold, and is checked against what the first left. -/
def inTurn : List Event :=
  [.ask 0 ⟨"/d/a", [49], "#0"⟩, .hold 0, .ask 1 ⟨"/d/a", [50], "#1"⟩, .hold 1, .check 0 none, .number 0,
    .create 0 none, .write 0 none, .rename 0 none, .finish 0 7, .hold 1, .check 1 none, .number 1, .create 1 none,
    .write 1 none, .rename 1 none, .finish 1 8]

theorem saves_form_chains_inTurn :
    Saved twoNames (oneFile 0o644) (inTurn.foldl (World.step twoNames) (.start (oneFile 0o644) 3)) ∧
      (inTurn.foldl (World.step twoNames) (.start (oneFile 0o644) 3)).savesOf (0, "a") =
        [⟨"/d/a", [49], "#0"⟩, ⟨"/d/a", [50], "#1"⟩] := by
  refine ⟨saves_form_chains twoNames (oneFile 0o644) 3 (Fits.runs ?_), rfl⟩
  refine ⟨trivial, trivial, trivial, trivial, ?_, trivial, ?_, trivial, ?_, trivial, trivial, ?_, trivial, ?_, trivial, ?_,
    trivial, trivial⟩
  · intro _ _ _ _ _
    exact List.not_mem_nil
  · intro c n q is own
    cases Option.some.inj is
    cases own
    refine ⟨.inl (by decide), fun j phase c' there passed => ?_⟩
    rcases j with _ | _ | j <;> cases there <;> cases passed
    decide
  · intro c n ino p is own
    cases Option.some.inj is
    cases own
    refine ⟨.inr ⟨0, rfl, rfl, fun q ne is => ?_⟩, fun j phase c' there passed _ => ?_⟩
    · have is : (if q = (0, ".khor-save-a.3-0") then some (.file 1) else (oneFile 0o644).names q) = some (.file 0) := is
      have ne : q ≠ (0, "a") := ne
      simp only [oneFile, if_neg ne] at is
      split at is
      · cases is
      · split at is <;> cases is
    · rcases j with _ | _ | j <;> cases there <;> cases passed
      rfl
  · intro _ _ _ _ _
    exact List.not_mem_nil
  · intro c n q is own
    cases Option.some.inj is
    cases own
    refine ⟨.inl (by decide), fun j phase c' there passed => ?_⟩
    rcases j with _ | _ | j <;> cases there <;> cases passed
    decide
  · intro c n ino p is own
    cases Option.some.inj is
    cases own
    refine ⟨.inr ⟨1, rfl, rfl, fun q ne is => ?_⟩, fun j phase c' there passed _ => ?_⟩
    · have is : (if q = (0, ".khor-save-a.3-1") then some (.file 2) else if q = (0, ".khor-save-a.3-0") then none
        else if q = (0, "a") then some (.file 1) else if q = (0, ".khor-save-a.3-0") then some (.file 1)
        else (oneFile 0o644).names q) = some (.file 1) := is
      have ne : q ≠ (0, "a") := ne
      simp only [oneFile, if_neg ne] at is
      split at is
      · cases is
      · split at is
        · cases is
        · split at is <;> cases is
    · rcases j with _ | _ | j <;> cases there <;> cases passed
      rfl

/-- Two saves under two spellings start from the same contents and are both accepted; a save through a link leaves
the file it leads to; a save gives the file other permission bits. -/
theorem saves_overwritten :
    (∃ w, Runs (World.step twoNames) (fun _ _ => True) (.start (oneFile 0o644) 3) w ∧
      ¬ Saved twoNames (oneFile 0o644) w ∧ w.disk.text (0, "a") = some [50]) ∧
    (∃ w, Runs (World.step twoNames) (fun _ _ => True) (.start (oneFile 0o644) 3) w ∧
      ¬ Saved twoNames (oneFile 0o644) w ∧ w.disk.text (0, "a") = some [48]) ∧
    ∃ w, Runs (World.step twoNames) (fun _ _ => True) (.start (oneFile 0o755) 3) w ∧
      ¬ Saved twoNames (oneFile 0o755) w := by
  have anyRun (disk : Tree Nat) (es : List Event) :
      Runs (World.step twoNames) (fun _ _ => True) (.start disk 3) (es.foldl (World.step twoNames) (.start disk 3)) := by
    refine Fits.runs ?_
    generalize World.start disk 3 = w
    induction es generalizing w with
    | nil => trivial
    | cons e es ih => exact ⟨trivial, ih _⟩
  refine ⟨⟨_, anyRun _ (saving 0 "/d/a" 49 ++ saving 1 "/l/a" 50 ++ [Event.rename 0 none, .rename 1 none]), ?_, by decide⟩,
    ⟨_, anyRun _ (saving 0 "/d/b" 49 ++ [Event.rename 0 none, .finish 0 7]), ?_, by decide⟩,
    ⟨_, anyRun _ (saving 0 "/d/a" 49 ++ [Event.rename 0 none, .finish 0 7]), ?_⟩⟩
  · intro saved
    have chain : Chain twoNames.digest (some [48]) [⟨"/d/a", [49], "#0"⟩, ⟨"/l/a", [50], "#0"⟩] (some [50]) :=
      saved.chain (0, "a") (by decide)
    exact absurd chain.2.1 (by decide)
  · intro saved
    have chain : Chain twoNames.digest none [⟨"/d/b", [49], "#0"⟩] (some [49]) := saved.chain (0, "b") (by decide)
    exact absurd chain.1 (by decide)
  · intro saved
    obtain keeps | ⟨nothing, _⟩ := saved.keeps (0, "a") (by decide)
    · obtain ⟨ino, named, attr, _⟩ := keeps
      have named : some (Entry.file 1) = some (Entry.file ino) := named
      cases named
      exact absurd attr (by decide)
    · exact nomatch nothing

end Khor.Files
