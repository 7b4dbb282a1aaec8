/-
Module: Khor.Node.PublicationRuns
Purpose: Runs of the transfer registry: loads and saves one after another, the process killed between any two file steps
  and in the middle of a write, or a file step failing. The registry always holds the last body that was answered for
  or the one a call was publishing.
Trusted boundary: the gate, so that one process loads and saves
Main exports: World, Event, Inv, Inv.step, registry_atomic
-/
import Khor.Lib.Runs
import Khor.Node.Publication

namespace Khor.Publication

/-- Where the process is: in no call; in `load` before or after its one change of the files; in `save` after the file is
made, after the header, after the body, after the rename. -/
inductive Doing where
  | idle
  | recovering (recovery : Recovery) (generation : Nat) (body : Option Bytes)
  | loaded (generation : Nat) (body : Option Bytes)
  | created (generation : Nat) (body : Bytes)
  | headed (generation : Nat) (body : Bytes)
  | bodied (generation : Nat) (body : Bytes)
  | renamed (generation : Nat) (body : Bytes)

/-- The files, the journal the process holds and where it is. The rest are ghosts: how many bodies were published and the
last of them, what the last call that succeeded saved or loaded, and the body a later save began to write. -/
structure World where
  dir : Dir
  journal : Option Nat
  doing : Doing
  published : Nat
  stored : Option Bytes
  last : Option Bytes
  begun : Option Bytes

inductive Event where
  | load
  | save (body : Bytes)
  | step
  | fail (k : Nat)
  | kill (k : Nat)

namespace World

def start : World := ⟨⟨none, none, false⟩, none, .idle, 0, none, none, none⟩

variable (h : Checksum) (validate : Bytes → Except String Unit)

/-- `load` up to its change of the files. -/
def loads (w : World) : World :=
  match load h validate w.dir with
  | .error _ => { w with journal := none }
  | .ok (.keep, generation, body) => { w with journal := none, doing := .loaded generation body }
  | .ok (recovery, generation, body) => { w with journal := none, doing := .recovering recovery generation body }

/-- `save` up to its first write. It is refused where the body is too long or a publication stands there. -/
def saves (w : World) (body : Bytes) : World :=
  match w.journal with
  | none => w
  | some generation =>
      if MAX_IMAGE < body.length ∨ 2 ^ 64 ≤ generation + 1 ∨ w.dir.next ≠ none then w
      else { w with
        dir := { w.dir with next := some ⟨[], true⟩ }
        begun := some body
        doing := .created (generation + 1) body }

def put (w : World) (data : Bytes) : World := { w with dir := { w.dir with next := some ⟨data, true⟩ } }

/-- The next step of the call. -/
def next (w : World) : World :=
  match w.doing with
  | .idle => w
  | .recovering .publish generation body => { w with
      dir := perform w.dir .publish
      published := w.published + 1
      stored := body
      doing := .loaded generation body }
  | .recovering recovery generation body => { w with
      dir := perform w.dir recovery
      doing := .loaded generation body }
  | .loaded generation body => { w with
      journal := some generation, last := body, begun := none, doing := .idle }
  | .created generation body => { w.put (header h generation body) with doing := .headed generation body }
  | .headed generation body => { w.put (image h generation body) with doing := .bodied generation body }
  | .bodied generation body => { w with
      dir := perform w.dir .publish
      published := w.published + 1
      stored := some body
      doing := .renamed generation body }
  | .renamed generation body => { w with
      journal := some generation, last := some body, begun := none, doing := .idle }

/-- The next step is cut off after `k` bytes of its write. -/
def cut (w : World) (k : Nat) : World :=
  match w.doing with
  | .created generation body => w.put ((header h generation body).take k)
  | .headed generation body => w.put (header h generation body ++ body.take k)
  | _ => w

/-- A file step fails: a load gives no journal, a save leaves the one there is. -/
def fail (w : World) (k : Nat) : World :=
  match w.doing with
  | .recovering .. => { w with journal := none, doing := .idle }
  | _ => { w.cut h k with doing := .idle }

def kill (w : World) (k : Nat) : World := { w.cut h k with journal := none, doing := .idle }

def step (w : World) : Event → World
  | .load => w.loads h validate
  | .save body => w.saves body
  | .step => w.next h
  | .fail k => w.fail h k
  | .kill k => w.kill h k

/-- One call at a time, and saves of bodies that are accepted. A step that returns does not fail. -/
def May (w : World) : Event → Prop
  | .load => w.doing = .idle
  | .save body => w.doing = .idle ∧ w.journal ≠ none ∧ validate body = .ok ()
  | .step => w.doing ≠ .idle
  | .fail _ =>
      match w.doing with
      | .recovering .. | .created .. | .headed .. | .bodied .. => True
      | _ => False
  | .kill _ => True

end World

section

variable (h : Checksum) (validate : Bytes → Except String Unit)

/-- A body that may be published. -/
structure Good (body : Bytes) : Prop where
  fits : body.length ≤ MAX_IMAGE
  valid : validate body = .ok ()

/-- A save on its way, with so much of its image written. -/
structure Writing (w : World) (generation : Nat) (body data : Bytes) : Prop where
  follows : generation = w.published + 1
  small : generation < 2 ^ 64
  begun : w.begun = some body
  good : Good validate body
  next : w.dir.next = some ⟨data, true⟩
  stored : w.stored = w.last
  journal : w.journal = some w.published

/-- What is known where the process is. -/
def At (w : World) : Doing → Prop
  | .idle => ∀ generation, w.journal = some generation → generation = w.published ∧ w.stored = w.last
  | .recovering .keep _ _ => False
  | .recovering .discard generation body =>
      generation = w.published ∧ body = w.stored ∧ w.stored = w.last ∧ w.journal = none
  | .recovering .publish generation body => ∃ b, body = some b ∧ generation = w.published + 1 ∧ generation < 2 ^ 64 ∧
      w.begun = some b ∧ Good validate b ∧ w.dir.next = some ⟨image h generation b, true⟩ ∧ w.journal = none
  | .loaded generation body => generation = w.published ∧ body = w.stored ∧ w.dir.next = none ∧ w.journal = none
  | .created generation body => Writing validate w generation body []
  | .headed generation body => Writing validate w generation body (header h generation body)
  | .bodied generation body => Writing validate w generation body (image h generation body)
  | .renamed generation body =>
      generation = w.published ∧ w.stored = some body ∧ w.begun = some body ∧ w.dir.next = none

/-- The registry holds the last published body, of as many as there were; beside it stands at most the beginning of the
next image; and what is stored is what was last answered for, or what a call had begun and finished but for its
answer. -/
structure Inv (w : World) : Prop where
  known : w.dir.unknown = false
  stands : Stands h validate w.dir.registry w.published w.stored
  next : ∀ f, w.dir.next = some f → ∃ body, w.begun = some body ∧ Good validate body ∧ f.safe = true ∧
    f.data <+: image h (w.published + 1) body ∧ w.published + 1 < 2 ^ 64
  which : w.stored = w.last ∨ (w.begun ≠ none ∧ w.stored = w.begun ∧ w.dir.next = none)
  place : At h validate w w.doing

theorem Inv.start : Inv h validate World.start where
  known := rfl
  stands := .none
  next _ is := nomatch is
  which := .inl rfl
  place _ is := nomatch is

variable {h validate}

variable {body : Bytes} {w : World}

/-- A beginning of an image that is not all of it is torn. -/
theorem torn_of_cut {generation : Nat} {bytes : Bytes} (fits : body.length ≤ MAX_IMAGE)
    (cut : bytes <+: image h generation body) (short : bytes ≠ image h generation body) : Torn generation bytes := by
  have whole : image h generation body =
      front generation body.length ++ (h.sum (front generation body.length ++ body) ++ body) := by
    rw [image, header, List.append_assoc]
  have less : bytes.length < (image h generation body).length :=
    Nat.lt_of_le_of_ne cut.length_le fun same => short (cut.eq_of_length same)
  rw [image_length] at less
  refine ⟨body.length, h.sum (front generation body.length ++ body) ++ body, fits, ?_, whole ▸ cut, less⟩
  rw [List.length_append, h.length]

/-- What a load makes of any state a run leaves: never a refusal. -/
theorem Inv.load {w : World} (inv : Inv h validate w) :
    (w.dir.next = none ∧ load h validate w.dir = .ok (.keep, w.published, w.stored)) ∨
      (w.dir.next ≠ none ∧ Publication.load h validate w.dir = .ok (.discard, w.published, w.stored)) ∨
      ∃ body, w.begun = some body ∧ Good validate body ∧ w.published + 1 < 2 ^ 64 ∧
        w.dir.next = some ⟨image h (w.published + 1) body, true⟩ ∧
        Publication.load h validate w.dir = .ok (.publish, w.published + 1, some body) := by
  cases is : w.dir.next with
  | none => exact .inl ⟨rfl, load_ok.mpr ⟨inv.known, .alone inv.stands is⟩⟩
  | some f =>
      obtain ⟨body, begun, good, safe, cut, small⟩ := inv.next f is
      obtain ⟨data, flag⟩ := f
      cases safe
      by_cases whole : data = image h (w.published + 1) body
      · subst whole
        exact .inr (.inr ⟨body, begun, good, small, rfl,
          load_ok.mpr ⟨inv.known, .whole inv.stands small is good.fits good.valid⟩⟩)
      · refine .inr (.inl ⟨Option.some_ne_none _, load_ok.mpr ⟨inv.known, ?_⟩⟩)
        exact .torn inv.stands small is (torn_of_cut good.fits cut whole)

/-- Where a publication stands beside it, the registry holds what was last answered for. -/
theorem Inv.stored_of_next (inv : Inv h validate w) (there : w.dir.next ≠ none) : w.stored = w.last :=
  inv.which.elim (fun same => same) fun other => absurd other.2.2 there

/-! ### Every event -/

theorem Inv.loads (inv : Inv h validate w) : Inv h validate (w.loads h validate) := by
  obtain ⟨none, is⟩ | ⟨there, is⟩ | ⟨body, begun, good, small, there, is⟩ := inv.load
  · rw [World.loads, is]
    exact ⟨inv.known, inv.stands, inv.next, inv.which, rfl, rfl, none, rfl⟩
  · rw [World.loads, is]
    exact ⟨inv.known, inv.stands, inv.next, inv.which, rfl, rfl, inv.stored_of_next there, rfl⟩
  · rw [World.loads, is]
    exact ⟨inv.known, inv.stands, inv.next, inv.which, body, rfl, rfl, small, begun, good, there, rfl⟩

theorem Inv.saves (inv : Inv h validate w) (idle : w.doing = .idle) (valid : validate body = .ok ()) :
    Inv h validate (w.saves body) := by
  unfold World.saves
  split
  · exact inv
  · rename_i generation journal
    split
    · exact inv
    · rename_i free
      obtain ⟨fits, free⟩ := not_or.mp free
      obtain ⟨small, free⟩ := not_or.mp free
      have place := inv.place
      rw [idle] at place
      obtain ⟨rfl, same⟩ := place generation journal
      have good : Good validate body := ⟨Nat.le_of_not_lt fits, valid⟩
      have small := Nat.lt_of_not_le small
      refine ⟨inv.known, inv.stands, ?_, .inl same, rfl, small, rfl, good, rfl, same, journal⟩
      intro f is
      cases is
      exact ⟨body, rfl, good, rfl, List.nil_prefix, small⟩

/-- Putting down a beginning of the image that is on its way. -/
theorem Inv.put (inv : Inv h validate w) {generation : Nat} {data data' : Bytes}
    (writing : Writing validate w generation body data) (cut : data' <+: image h generation body)
    {journal : Option Nat} {doing : Doing}
    (place : At h validate { w.put data' with journal := journal, doing := doing } doing) :
    Inv h validate { w.put data' with journal := journal, doing := doing } where
  known := inv.known
  stands := inv.stands
  next := by
    intro f is
    cases is
    exact ⟨body, writing.begun, writing.good, rfl, writing.follows ▸ cut, writing.follows ▸ writing.small⟩
  which := .inl writing.stored
  place := place

theorem header_begins (h : Checksum) (generation : Nat) (body : Bytes) :
    header h generation body <+: image h generation body := List.prefix_append _ _

theorem Inv.next_step (inv : Inv h validate w) : Inv h validate (w.next h) := by
  have place := inv.place
  unfold World.next
  cases doing : w.doing with
  | idle => exact inv
  | recovering recovery generation body =>
      rw [doing] at place
      cases recovery with
      | keep => exact place.elim
      | discard =>
          obtain ⟨rfl, rfl, same, journal⟩ := place
          exact ⟨inv.known, inv.stands, (fun _ is => nomatch is), .inl same, rfl, rfl, rfl, journal⟩
      | publish =>
          obtain ⟨b, rfl, rfl, small, begun, good, there, journal⟩ := place
          have stands : Stands h validate w.dir.next (w.published + 1) (some b) := by
            rw [there]
            exact .body (Nat.succ_ne_zero _) small good.fits good.valid
          exact ⟨inv.known, stands, (fun _ is => nomatch is),
            .inr ⟨begun ▸ Option.some_ne_none b, begun.symm, rfl⟩, rfl, rfl, rfl, journal⟩
  | loaded generation body =>
      rw [doing] at place
      obtain ⟨rfl, rfl, none, -⟩ := place
      refine ⟨inv.known, inv.stands, ?_, .inl rfl, ?_⟩
      · intro f is
        rw [show w.dir.next = _ from none] at is
        cases is
      · rintro _ ⟨⟩
        exact ⟨rfl, rfl⟩
  | created generation body =>
      rw [doing] at place
      exact inv.put place (header_begins h generation body)
        ⟨place.follows, place.small, place.begun, place.good, rfl, place.stored, place.journal⟩
  | headed generation body =>
      rw [doing] at place
      exact inv.put place (List.prefix_refl _)
        ⟨place.follows, place.small, place.begun, place.good, rfl, place.stored, place.journal⟩
  | bodied generation body =>
      rw [doing] at place
      obtain ⟨rfl, small, begun, good, there, -, -⟩ := place
      have stands : Stands h validate w.dir.next (w.published + 1) (some body) := by
        rw [there]
        exact .body (Nat.succ_ne_zero _) small good.fits good.valid
      exact ⟨inv.known, stands, (fun _ is => nomatch is), .inr ⟨begun ▸ Option.some_ne_none body, begun.symm, rfl⟩,
        rfl, rfl, begun, rfl⟩
  | renamed generation body =>
      rw [doing] at place
      obtain ⟨rfl, stored, -, none⟩ := place
      refine ⟨inv.known, inv.stands, ?_, .inl stored, ?_⟩
      · intro f is
        rw [show w.dir.next = _ from none] at is
        cases is
      · rintro _ ⟨⟩
        exact ⟨rfl, stored⟩

/-- A call cut short leaves the files in order; the journal is gone, or as the call found it. -/
theorem Inv.cut {w : World} (inv : Inv h validate w) (k : Nat) {journal : Option Nat}
    (place : ∀ generation, journal = some generation → generation = w.published ∧ w.stored = w.last) :
    Inv h validate { w.cut h k with journal := journal, doing := .idle } := by
  have at_ := inv.place
  unfold World.cut
  cases doing : w.doing with
  | created generation body =>
      rw [doing] at at_
      exact inv.put at_ ((List.take_prefix _ _).trans (header_begins h generation body)) place
  | headed generation body =>
      rw [doing] at at_
      refine inv.put at_ ?_ place
      rw [image]
      exact (List.prefix_append_right_inj _).mpr (List.take_prefix _ _)
  | _ => exact ⟨inv.known, inv.stands, inv.next, inv.which, place⟩

theorem Inv.fail (inv : Inv h validate w) (k : Nat) (may : w.May validate (.fail k)) :
    Inv h validate (w.fail h k) := by
  have place := inv.place
  have journal : (∃ recovery generation body, w.doing = .recovering recovery generation body) ∨
      w.journal = some w.published ∧ w.stored = w.last := by
    unfold World.May at may
    cases doing : w.doing with
    | recovering recovery generation body => exact .inl ⟨_, _, _, rfl⟩
    | created | headed | bodied =>
        rw [doing] at place
        exact .inr ⟨place.journal, place.stored⟩
    | idle | loaded | renamed =>
        rw [doing] at may
        exact may.elim
  obtain ⟨recovery, generation, body, doing⟩ | ⟨held, same⟩ := journal
  · rw [World.fail, doing]
    exact ⟨inv.known, inv.stands, inv.next, inv.which, fun _ is => nomatch is⟩
  · have whole := @Inv.cut h validate w inv k w.journal fun generation is => by
      rw [held] at is
      cases is
      exact ⟨rfl, same⟩
    have kept : (w.cut h k).journal = w.journal := by
      unfold World.cut
      split <;> rfl
    unfold World.fail
    split
    · exact ⟨inv.known, inv.stands, inv.next, inv.which, fun _ is => nomatch is⟩
    · rw [← kept] at whole
      exact whole

theorem Inv.step {w : World} {e : Event} (may : w.May validate e) (inv : Inv h validate w) :
    Inv h validate (w.step h validate e) := by
  cases e with
  | load => exact inv.loads
  | save body => exact inv.saves may.1 may.2.2
  | step => exact inv.next_step
  | fail k => exact inv.fail k may
  | kill k => exact inv.cut k fun _ is => nomatch is

theorem Inv.of_runs (run : Runs (World.step h validate) (World.May validate) World.start w) : Inv h validate w :=
  run.invariant Inv.step (Inv.start h validate)

/-! ### What the next call answers -/

section

variable (inv : Inv h validate w)
include inv

/-- One event leaves the registry, or puts the one body there that a save had begun. -/
theorem Inv.registry (e : Event) :
    ((w.step h validate e).dir.registry = w.dir.registry ∧ (w.step h validate e).published = w.published ∧
        (w.step h validate e).stored = w.stored) ∨
      ∃ body, w.begun = some body ∧ (w.step h validate e).published = w.published + 1 ∧
        (w.step h validate e).stored = some body ∧
        (w.step h validate e).dir.registry = some ⟨image h (w.published + 1) body, true⟩ := by
  have place := inv.place
  have cut (k : Nat) : (w.cut h k).dir.registry = w.dir.registry ∧ (w.cut h k).published = w.published ∧
      (w.cut h k).stored = w.stored := by
    unfold World.cut
    split <;> exact ⟨rfl, rfl, rfl⟩
  cases e with
  | load =>
      left
      change (w.loads h validate).dir.registry = _ ∧ _
      unfold World.step World.loads
      split <;> exact ⟨rfl, rfl, rfl⟩
  | save body =>
      left
      unfold World.step World.saves
      dsimp only
      split
      · exact ⟨rfl, rfl, rfl⟩
      · split <;> exact ⟨rfl, rfl, rfl⟩
  | fail k =>
      left
      unfold World.step World.fail
      dsimp only
      split
      · exact ⟨rfl, rfl, rfl⟩
      · exact cut k
  | kill k => exact .inl (cut k)
  | step =>
      unfold World.step World.next
      dsimp only
      cases doing : w.doing with
      | recovering recovery generation body =>
          rw [doing] at place
          cases recovery with
          | publish =>
              obtain ⟨b, rfl, rfl, -, begun, -, there, -⟩ := place
              exact .inr ⟨b, begun, rfl, rfl, there⟩
          | _ => exact .inl ⟨rfl, rfl, rfl⟩
      | bodied generation body =>
          rw [doing] at place
          obtain ⟨rfl, -, begun, -, there, -, -⟩ := place
          exact .inr ⟨body, begun, rfl, rfl, there⟩
      | _ => exact .inl ⟨rfl, rfl, rfl⟩

/-- Where no save is open, what was last answered is what is stored. -/
theorem Inv.settled (none : w.begun = none) : w.stored = w.last :=
  inv.which.elim (fun same => same) fun other => absurd none other.1

/-- Until the next save nothing is begun and the last answer stays. -/
theorem Inv.stays (none : w.begun = none) {e : Event} (other : ∀ body, e ≠ .save body) :
    (w.step h validate e).begun = Option.none ∧ (w.step h validate e).last = w.last := by
  have place := inv.place
  have cut (k : Nat) : (w.cut h k).begun = w.begun ∧ (w.cut h k).last = w.last := by
    unfold World.cut
    split <;> exact ⟨rfl, rfl⟩
  cases e with
  | load =>
      unfold World.step World.loads
      dsimp only
      split <;> exact ⟨none, rfl⟩
  | save body => exact absurd rfl (other body)
  | fail k =>
      unfold World.step World.fail
      dsimp only
      split
      · exact ⟨none, rfl⟩
      · exact ⟨(cut k).1.trans none, (cut k).2⟩
  | kill k => exact ⟨(cut k).1.trans none, (cut k).2⟩
  | step =>
      unfold World.step World.next
      dsimp only
      cases doing : w.doing with
      | recovering recovery generation body => cases recovery <;> exact ⟨none, rfl⟩
      | loaded generation body =>
          rw [doing] at place
          obtain ⟨-, rfl, -, -⟩ := place
          exact ⟨rfl, inv.settled none⟩
      | renamed generation body =>
          rw [doing] at place
          rw [place.2.2.1] at none
          cases none
      | _ => exact ⟨none, rfl⟩

/-- What a load of any state a run leaves answers. -/
theorem Inv.answers :
    ∃ recovery generation body, Publication.load h validate w.dir = .ok (recovery, generation, body) ∧
      (body = w.last ∨ w.begun ≠ none ∧ body = w.begun) ∧ (w.begun = none → recovery = .keep ∧ body = w.last) := by
  have keep (none : w.begun = none) : w.dir.next = Option.none := by
    cases is : w.dir.next with
    | none => rfl
    | some f =>
        obtain ⟨body, begun, -⟩ := inv.next f is
        rw [none] at begun
        cases begun
  obtain ⟨-, is⟩ | ⟨there, is⟩ | ⟨body, begun, -, -, -, is⟩ := inv.load
  · refine ⟨_, _, _, is, ?_, fun none => ⟨rfl, inv.settled none⟩⟩
    exact inv.which.imp_right fun other => ⟨other.1, other.2.1⟩
  · exact ⟨_, _, _, is, .inl (inv.stored_of_next there), fun none => absurd (keep none) there⟩
  · refine ⟨_, _, _, is, .inr ⟨begun ▸ Option.some_ne_none body, begun.symm⟩, fun none => ?_⟩
    rw [none] at begun
    cases begun

/-- A look at any state a run leaves sees what the registry holds. -/
theorem Inv.peeks : peek h w.dir = .ok w.stored := by
  refine peek_ok inv.known inv.stands ?_
  cases is : w.dir.next with
  | none => rfl
  | some f =>
      obtain ⟨-, -, -, safe, -⟩ := inv.next f is
      rw [Option.all_some, safe]

end

end

section

variable (h : Checksum) (validate : Bytes → Except String Unit)

/-- The registry over its runs. Whatever was cut off, the next load answers, with the last body answered for or the one
a save had begun, and a look sees one of them; generations rise by one with each published body; until the next save the
answer stays. A load answers nowhere else than where it finds a whole registry and beside it nothing, a torn
publication of the next generation or a whole one; everything else it refuses as it found it. -/
theorem registry_atomic :
    (∀ w, Runs (World.step h validate) (World.May validate) World.start w →
      (∃ recovery generation body, load h validate w.dir = .ok (recovery, generation, body) ∧
        (body = w.last ∨ w.begun ≠ none ∧ body = w.begun) ∧ (w.begun = none → recovery = .keep ∧ body = w.last)) ∧
      (peek h w.dir = .ok w.stored ∧ (w.stored = w.last ∨ w.begun ≠ none ∧ w.stored = w.begun)) ∧
      current h validate w.dir = .ok (w.published, w.stored) ∧
      (∀ e, ((w.step h validate e).dir.registry = w.dir.registry ∧ (w.step h validate e).published = w.published ∧
          (w.step h validate e).stored = w.stored) ∨
        ∃ body, w.begun = some body ∧ (w.step h validate e).published = w.published + 1 ∧
          (w.step h validate e).stored = some body ∧
          (w.step h validate e).dir.registry = some ⟨image h (w.published + 1) body, true⟩) ∧
      (w.begun = none → ∀ e, (∀ body, e ≠ .save body) →
        (w.step h validate e).begun = none ∧ (w.step h validate e).last = w.last)) ∧
    (∀ dir recovery generation body, load h validate dir = .ok (recovery, generation, body) ↔
      dir.unknown = false ∧ Finds h validate dir recovery generation body) ∧
    (∀ dir e, load h validate dir = .error e → loaded h validate dir = (dir, .error e)) ∧
    ∀ dir, Foreign h validate dir → ∃ e, loaded h validate dir = (dir, .error e) := by
  refine ⟨?_, fun _ _ _ _ => load_ok, fun _ _ => loaded_refused, fun _ => Foreign.refused⟩
  intro w run
  have inv := Inv.of_runs run
  refine ⟨inv.answers, ⟨inv.peeks, inv.which.imp_right fun other => ⟨other.1, other.2.1⟩⟩,
    current_ok.mpr inv.stands, inv.registry, ?_⟩
  intro none e other
  exact inv.stays none other

end

/-! ### What no run leaves, and a load throws away -/

/-- A publication of an empty body, cut off in its checksum, which is not that of an empty body. -/
def stray (h : Checksum) : Dir := ⟨none, some ⟨front 1 0 ++ ((h.sum (front 1 0)).take 1).map (· + 1), true⟩, false⟩

/-- No run leaves this publication, and a load removes it, whatever the checksum and the validator. -/
theorem stray_discarded :
    (∀ h validate w, Runs (World.step h validate) (World.May validate) World.start w → w.dir ≠ stray h) ∧
      ∀ h validate, loaded h validate (stray h) = ({ stray h with next := none }, .ok (0, none)) := by
  constructor
  · intro h validate w run is
    obtain ⟨body, -, good, -, ⟨rest, same⟩, small⟩ := (Inv.of_runs run).next _ (by rw [is]; rfl)
    rw [image, header, List.append_assoc, List.append_assoc] at same
    obtain ⟨fronts, sums⟩ := List.append_inj same (by rw [front_length, front_length])
    have backs : toBe 8 0 = toBe 8 body.length := by simpa [front, MAGIC] using congrArg (List.drop 16) fronts
    have fits : body.length < 256 ^ 8 := Nat.lt_of_le_of_lt good.fits (by decide)
    have lengths := fromBe_toBe 8 body.length fits
    rw [← backs] at lengths
    obtain rfl := List.eq_nil_of_length_eq_zero lengths.symm
    rw [← fronts, List.append_nil, List.append_nil] at sums
    have long := h.length (front 1 0)
    cases sum : h.sum (front 1 0) with
    | nil =>
        rw [sum] at long
        cases long
    | cons b sum' =>
        rw [sum] at sums
        have head : b + 1 = b := (List.cons.inj sums).1
        grind
  · intro h validate
    have length : (front 1 0 ++ ((h.sum (front 1 0)).take 1).map (· + 1)).length = 25 := by
      simp [h.length]
    have found : load h validate (stray h) = .ok (.discard, 0, none) := by
      refine load_ok.mpr ⟨rfl, .torn .none (by decide) rfl ⟨0, ((h.sum (front 1 0)).take 1).map (· + 1) ++ List.replicate 31 0,
        Nat.zero_le _, ?_, ?_, ?_⟩⟩
      · simp [h.length]
      · rw [← List.append_assoc]
        exact List.prefix_append _ _
      · rw [length]
        decide
    rw [loaded, found]
    rfl

end Khor.Publication
