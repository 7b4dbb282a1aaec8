/-
Module: Khor.Files.MovingRuns
Purpose: No bytes of a conversation file are lost in the move, and once the mark is written each is found.
Trusted boundary: none
Main exports: Filed, Inv, Inv.step, move_keeps_bytes, move_loses_bytes
-/
import Khor.Files.LandingRuns
import Khor.Files.Moving

namespace Khor.Moving

open Landing (candidate partOf ne_partOf)

/-- The part that a run has in the receive directory. -/
def Phase.part : Phase → Option String
  | .reserved _ dest | .copying _ dest | .copied _ dest | .placed _ dest | .settled _ dest | .failing _ dest =>
      some (partOf dest)
  | _ => none

/-- The old file is gone and only this run knows where it went. -/
def Phase.pending : Phase → Option (Job × String)
  | .settled j dest | .recording j dest => some (j, dest)
  | _ => none

section Moving

variable {hash : Bytes → String}

/-- A receipt names a file of the receive directory with the bytes. -/
def Filed (hash : Bytes → String) (w : World) (bytes : Bytes) : Prop :=
  ∃ r name, w.receipts (hash bytes) = some r ∧ r.path = .inbox name ∧ r.size = bytes.length ∧
    w.inbox name = some (.file bytes) ∧ w.phase.part ≠ some name

/-- A file is where it was, or filed, or on its way. -/
def Safe (hash : Bytes → String) (w : World) (o : Old) (bytes : Bytes) : Prop :=
  w.olds o = some (.file bytes) ∨ Filed hash w bytes ∨
    ∃ j dest, w.phase.pending = some (j, dest) ∧ j.o = o ∧ j.body = bytes

/-- Files with the digest of the one at work are where they were. -/
def Unfiled (hash : Bytes → String) (w₀ w : World) (j : Job) : Prop :=
  ∀ o bytes, o ≠ j.o → w₀.olds o = some (.file bytes) → hash bytes = hash j.body → w.olds o = some (.file bytes)

/-- What is there by where the run is. -/
def Own (hash : Bytes → String) (w₀ w : World) : Prop :=
  match w.phase with
  | .taken j => w.olds j.o = some (.file j.body)
  | .dropping j _ => w.olds j.o = some (.file j.body) ∧ Filed hash w j.body
  | .reserving j => w.olds j.o = some (.file j.body) ∧ Unfiled hash w₀ w j
  | .reserved j dest | .copying j dest =>
      w.olds j.o = some (.file j.body) ∧ Unfiled hash w₀ w j ∧ w.inbox dest = none
  | .copied j dest =>
      w.olds j.o = some (.file j.body) ∧ Unfiled hash w₀ w j ∧ w.inbox dest = none ∧
        w.inbox (partOf dest) = some (.file j.body)
  | .placed j dest => w.olds j.o = some (.file j.body) ∧ Unfiled hash w₀ w j ∧ w.inbox dest = some (.file j.body)
  | .settled j dest | .recording j dest =>
      w.olds j.o = none ∧ Unfiled hash w₀ w j ∧ w.inbox dest = some (.file j.body) ∧
        w₀.olds j.o = some (.file j.body)
  | .linking j _ => w.olds j.o = none
  | .failing j _ => w.olds j.o = some (.file j.body)
  | _ => True

/-- What the scan has not come to, or could not move. -/
def Phase.Left (phase : Phase) (o : Old) : Prop :=
  match phase with
  | .idle => True
  | .scanning rest stuck _ => o ∈ rest ∨ stuck = true
  | .taken j | .dropping j _ | .reserving j | .reserved j _ | .copying j _ | .copied j _ | .placed j _
  | .settled j _ | .recording j _ | .linking j _ | .failing j _ => o = j.o ∨ o ∈ j.rest ∨ j.stuck = true

structure Inv (hash : Bytes → String) (w₀ w : World) : Prop where
  shrinks : ∀ o bytes, w.olds o = some (.file bytes) → w₀.olds o = some (.file bytes)
  safe : ∀ o bytes, w₀.olds o = some (.file bytes) → Safe hash w o bytes
  own : Own hash w₀ w
  left : ∀ o bytes, w.olds o = some (.file bytes) → o.visible = true → w.phase.Left o
  quiet : w.mark = true → w.phase = .idle
  marked : w.mark = true → w₀.mark = true ∨ ∀ o bytes, w₀.olds o = some (.file bytes) → o.visible = true →
    Filed hash w bytes

variable {w w' w₀ : World} {bytes : Bytes} {p : Phase}

theorem reads_inbox {name : String} (there : w.inbox name = some (.file bytes)) :
    w.reads LINKS (.inbox name) = some bytes := by
  have entry : w.entry (.inbox name) = some (.file bytes) := there
  rw [LINKS, World.reads, entry]

theorem Filed.receipt (filed : Filed hash w bytes) :
    ∃ r name, receipt w (hash bytes) = some r ∧ r.path = .inbox name ∧ w.inbox name = some (.file bytes) ∧
      w.reads LINKS r.path = some bytes := by
  obtain ⟨r, name, is, path, size, there, _⟩ := filed
  have reads : w.reads LINKS r.path = some bytes := by
    rw [path, reads_inbox there]
  refine ⟨r, name, ?_, path, there, reads⟩
  unfold Moving.receipt
  rw [is, Option.filter_some, reads]
  simp [size]

/-- The files of the receive directory stay, but for the part of the run. -/
def Stays (w w' : World) : Prop :=
  ∀ name bytes, w.inbox name = some (.file bytes) → w.phase.part ≠ some name →
    w'.inbox name = some (.file bytes) ∧ w'.phase.part ≠ some name

theorem Filed.stays (filed : Filed hash w bytes) (stays : Stays w w')
    (receipts : w'.receipts (hash bytes) = w.receipts (hash bytes)) : Filed hash w' bytes := by
  obtain ⟨r, name, is, path, size, there, notPart⟩ := filed
  obtain ⟨there', notPart'⟩ := stays name bytes there notPart
  exact ⟨r, name, receipts.trans is, path, size, there', notPart'⟩

section

variable (inv : Inv hash w₀ w) (is : w.phase = p)
include inv is

/-- What is there, with the place of the run put in. -/
theorem Inv.owns : Own hash w₀ { w with phase := p } := by
  subst is
  exact inv.own

/-- With no file on its way, each is where it was or filed. -/
theorem Inv.kept (still : p.pending = none) {o : Old}
    (first : w₀.olds o = some (.file bytes)) : w.olds o = some (.file bytes) ∨ Filed hash w bytes := by
  obtain here | filed | ⟨_, _, on, _⟩ := inv.safe o bytes first
  · exact .inl here
  · exact .inr filed
  · subst is
    cases still.symm.trans on

theorem Inv.unmarked (running : p ≠ .idle) :
    w.mark ≠ true := fun mark => running (is.symm.trans (inv.quiet mark))

/-- A step that leaves the conversation folders and the receipts. -/
theorem Inv.goes (running : p ≠ .idle) (olds : w'.olds = w.olds)
    (receipts : w'.receipts = w.receipts) (mark : w'.mark = w.mark) (stays : Stays w w')
    (pending : w'.phase.pending = p.pending) (own : Own hash w₀ w')
    (left : ∀ o, o.visible = true → (∃ bytes, w.olds o = some (.file bytes)) → p.Left o → w'.phase.Left o) :
    Inv hash w₀ w' where
  shrinks := fun o bytes is => inv.shrinks o bytes (olds ▸ is)
  safe := by
    intro o bytes first
    obtain here | filed | ⟨j, dest, on, its⟩ := inv.safe o bytes first
    · exact .inl (olds ▸ here)
    · exact .inr (.inl (filed.stays stays (by rw [receipts])))
    · exact .inr (.inr ⟨j, dest, pending.trans (is ▸ on), its⟩)
  own := own
  left := by
    intro o bytes there seen
    have there : w.olds o = some (.file bytes) := olds ▸ there
    exact left o seen ⟨bytes, there⟩ (is ▸ inv.left o bytes there seen)
  quiet := fun marked => absurd (mark ▸ marked) (inv.unmarked is running)
  marked := fun marked => absurd (mark ▸ marked) (inv.unmarked is running)

/-- The old file of a job goes, and is filed or on its way. -/
theorem Inv.gone (running : p ≠ .idle) {j : Job} (here : w.olds j.o = some (.file j.body))
    (olds : w'.olds = set w.olds j.o none) (receipts : w'.receipts = w.receipts) (mark : w'.mark = w.mark)
    (stays : Stays w w') (still : p.pending = none) (now : Safe hash w' j.o j.body) (own : Own hash w₀ w')
    (left : ∀ o, p.Left o → w'.phase.Left o) : Inv hash w₀ w' where
  shrinks := by
    intro o bytes is
    rw [olds, set_apply] at is
    split at is
    · cases is
    · exact inv.shrinks o bytes is
  safe := by
    intro o bytes first
    by_cases same : o = j.o
    · subst same
      have body : bytes = j.body := by
        cases first.symm.trans (inv.shrinks _ _ here)
        rfl
      exact body ▸ now
    · obtain here' | filed := inv.kept is still first
      · exact .inl (by rw [olds, set_apply, if_neg same]; exact here')
      · exact .inr (.inl (filed.stays stays (by rw [receipts])))
  own := own
  left := by
    intro o bytes there seen
    rw [olds, set_apply] at there
    split at there
    · cases there
    · exact left o (is ▸ inv.left o bytes there seen)
  quiet := fun marked => absurd (mark ▸ marked) (inv.unmarked is running)
  marked := fun marked => absurd (mark ▸ marked) (inv.unmarked is running)

end

theorem Stays.same (inbox : w'.inbox = w.inbox) (part : w'.phase.part = w.phase.part ∨ w'.phase.part = none) :
    Stays w w' := by
  intro name bytes there notPart
  refine ⟨inbox ▸ there, ?_⟩
  obtain same | none_ := part
  · exact same ▸ notPart
  · rw [none_]
    nofun

/-- Only the part of the run changes. -/
theorem Stays.part {dest : String} {e : Option Entry} (is : w.phase.part = some (partOf dest))
    (inbox : w'.inbox = set w.inbox (partOf dest) e)
    (part : w'.phase.part = some (partOf dest) ∨ w'.phase.part = none) : Stays w w' := by
  intro name bytes there notPart
  have ne : name ≠ partOf dest := fun same => notPart (same ▸ is)
  refine ⟨by rw [inbox, set_apply, if_neg ne]; exact there, ?_⟩
  obtain same | none_ := part
  · rw [same]
    exact fun eq => ne (Option.some.inj eq).symm
  · rw [none_]
    nofun

/-- No file with the digest of the one at work goes with it. -/
theorem Unfiled.gone {j : Job} (unfiled : Unfiled hash w₀ w j) (olds : w'.olds = set w.olds j.o none) :
    Unfiled hash w₀ w' j := by
  intro o bytes ne first same
  rw [olds, set_apply, if_neg ne]
  exact unfiled o bytes ne first same

/-! ### Steps -/

theorem take_inv (inv : Inv hash w₀ w) (fault : Bool) (atMs : Int) : Inv hash w₀ (w.take fault atMs) := by
  unfold World.take
  split
  · rename_i o rest stuck moved is
    have left {o' : Old} (left : (Phase.scanning (o :: rest) stuck moved).Left o') : o' = o ∨ o' ∈ rest ∨ stuck = true := by
      obtain mem | stuck := left
      · exact (List.mem_cons.mp mem).imp_right .inl
      · exact .inr (.inr stuck)
    have onward (not_ : o.visible = true → ∀ bytes, w.olds o ≠ some (.file bytes)) :
        Inv hash w₀ { w with phase := .scanning rest stuck moved } := by
      refine inv.goes is nofun rfl rfl rfl (Stays.same rfl (.inr rfl)) rfl trivial ?_
      rintro o' seen ⟨bytes, there⟩ left'
      obtain rfl | rest' := left left'
      · exact absurd there (not_ seen bytes)
      · exact rest'
    split
    · rename_i body there
      split
      · split
        · exact inv.goes is nofun rfl rfl rfl (Stays.same rfl (.inr rfl)) rfl trivial fun _ _ _ _ => .inr rfl
        · exact inv.goes is nofun rfl rfl rfl (Stays.same rfl (.inr rfl)) rfl there fun _ _ _ left' => left left'
      · rename_i hidden
        exact onward fun seen => absurd seen hidden
    · rename_i other
      exact onward fun _ bytes there => other bytes there
  · exact inv

theorem check_inv (inv : Inv hash w₀ w) (meets : w.Meets hash .check) : Inv hash w₀ (w.check hash) := by
  unfold World.check
  split
  · rename_i j is
    have here : w.olds j.o = some (.file j.body) := inv.owns is
    split
    · rename_i r found
      obtain ⟨name, path, there⟩ := meets j r is found
      have filed : Filed hash { w with phase := .dropping j r.path } j.body := by
        unfold Moving.receipt at found
        obtain ⟨recorded, size⟩ := Option.filter_eq_some_iff.mp found
        have reads : w.reads LINKS r.path = some j.body := by
          rw [path, reads_inbox there]
        rw [reads] at size
        have size : j.body.length = r.size := by simpa using size
        exact ⟨r, name, recorded, path, size.symm, there, (by rintro ⟨⟩)⟩
      exact inv.goes is (by simp) rfl rfl rfl (Stays.same rfl (.inr rfl)) rfl ⟨here, filed⟩ fun _ _ _ left => left
    · rename_i none_
      refine inv.goes is (by simp) rfl rfl rfl (Stays.same rfl (.inr rfl)) rfl ⟨here, ?_⟩ fun _ _ _ left => left
      intro o bytes _ first same
      obtain there | filed := inv.kept is rfl first
      · exact there
      · obtain ⟨r, _, is', _⟩ := filed.receipt
        rw [same, none_] at is'
        cases is'
  · exact inv

theorem drop_inv (inv : Inv hash w₀ w) (fault : Bool) : Inv hash w₀ (w.drop fault) := by
  unfold World.drop
  split
  · rename_i j path is
    obtain ⟨here, filed⟩ : w.olds j.o = some (.file j.body) ∧ Filed hash { w with phase := .dropping j path } j.body :=
      inv.owns is
    split
    · exact inv.goes is nofun rfl rfl rfl (Stays.same rfl (.inr rfl)) rfl trivial fun _ _ _ _ => .inr rfl
    · refine inv.gone is nofun here rfl rfl rfl (Stays.same rfl (.inr rfl)) rfl (.inr (.inl ?_)) (if_pos rfl)
        fun _ left => left
      exact filed.stays (Stays.same rfl (.inr rfl)) rfl
  · exact inv

theorem firstFree_free {inbox : String → Option Entry} {name dest : String} {fuel n : Nat}
    (is : firstFree inbox name fuel n = some dest) : inbox dest = none ∧ inbox (partOf dest) = none := by
  induction fuel generalizing n with
  | zero => cases is
  | succ fuel ih =>
      unfold firstFree at is
      split at is
      · exact ih is
      · rename_i free
        cases is
        simpa using free

section

variable (inv : Inv hash w₀ w)
include inv

theorem reserve_inv (fault : Bool) : Inv hash w₀ (w.reserve hash fault) := by
  unfold World.reserve
  split
  · rename_i j is
    obtain ⟨here, unfiled⟩ : w.olds j.o = some (.file j.body) ∧ Unfiled hash w₀ w j := inv.owns is
    have stops : Inv hash w₀ { w with phase := j.stops } :=
      inv.goes is nofun rfl rfl rfl (Stays.same rfl (.inr rfl)) rfl trivial fun _ _ _ _ => .inr rfl
    split
    · exact stops
    · split
      · rename_i dest found
        obtain ⟨free, freePart⟩ := firstFree_free found
        refine inv.goes is nofun rfl rfl rfl ?_ rfl ⟨here, unfiled, ?_⟩ fun _ _ _ left => left
        · intro name bytes there _
          have ne : name ≠ partOf dest := by
            intro same
            rw [same, freePart] at there
            cases there
          refine ⟨?_, fun eq => ne (Option.some.inj eq).symm⟩
          change set w.inbox (partOf dest) _ name = _
          rw [set_apply, if_neg ne]
          exact there
        · change set w.inbox (partOf dest) _ dest = none
          rw [set_apply, if_neg (ne_partOf dest)]
          exact free
      · exact stops
  · exact inv

theorem rename_inv (fault : Bool) : Inv hash w₀ (w.rename fault) := by
  unfold World.rename
  split
  · rename_i j dest is
    have part : w.phase.part = some (partOf dest) := by rw [is]; rfl
    obtain ⟨here, unfiled, free⟩ : w.olds j.o = some (.file j.body) ∧ Unfiled hash w₀ w j ∧ w.inbox dest = none :=
      inv.owns is
    split
    · exact inv.goes is nofun rfl rfl rfl (Stays.same rfl (.inl part.symm)) rfl ⟨here, unfiled, free⟩
        fun _ _ _ left => left
    · refine inv.gone is nofun here rfl rfl rfl ?_ rfl (.inr (.inr ⟨j, dest, rfl, rfl, rfl⟩))
        ⟨if_pos rfl, unfiled.gone rfl, if_pos rfl, inv.shrinks _ _ here⟩ fun _ left => left
      intro name bytes there notPart
      have ne : name ≠ dest := by
        intro same
        rw [same, free] at there
        cases there
      refine ⟨?_, fun eq => notPart (part.trans eq)⟩
      change set w.inbox dest _ name = _
      rw [set_apply, if_neg ne]
      exact there
  · exact inv

theorem copy_inv (fault : Option Nat) : Inv hash w₀ (w.copy fault) := by
  unfold World.copy
  split
  · rename_i j dest is
    have part : w.phase.part = some (partOf dest) := by rw [is]; rfl
    obtain ⟨here, unfiled, free⟩ : w.olds j.o = some (.file j.body) ∧ Unfiled hash w₀ w j ∧ w.inbox dest = none :=
      inv.owns is
    split
    · exact inv.goes is nofun rfl rfl rfl (Stays.part part rfl (.inl rfl)) rfl here fun _ _ _ left => left
    · refine inv.goes is nofun rfl rfl rfl (Stays.part part rfl (.inl rfl)) rfl ⟨here, unfiled, ?_, if_pos rfl⟩
        fun _ _ _ left => left
      change set w.inbox (partOf dest) _ dest = none
      rw [set_apply, if_neg (ne_partOf dest)]
      exact free
  · exact inv

theorem place_inv (fault : Bool) : Inv hash w₀ (w.place fault) := by
  unfold World.place
  split
  · rename_i j dest is
    have part : w.phase.part = some (partOf dest) := by rw [is]; rfl
    obtain ⟨here, unfiled, free, whole⟩ : w.olds j.o = some (.file j.body) ∧ Unfiled hash w₀ w j ∧
        w.inbox dest = none ∧ w.inbox (partOf dest) = some (.file j.body) := inv.owns is
    split
    · exact inv.goes is nofun rfl rfl rfl (Stays.same rfl (.inl part.symm)) rfl here fun _ _ _ left => left
    · refine inv.goes is nofun rfl rfl rfl ?_ rfl ⟨here, unfiled, ?_⟩ fun _ _ _ left => left
      · intro name bytes there notPart
        have ne : name ≠ dest := by
          intro same
          rw [same, free] at there
          cases there
        have ne' : name ≠ partOf dest := fun same => notPart (same ▸ part)
        refine ⟨?_, fun eq => notPart (part.trans eq)⟩
        change set (set w.inbox dest _) (partOf dest) none name = _
        rw [set_apply, if_neg ne', set_apply, if_neg ne]
        exact there
      · change set (set w.inbox dest _) (partOf dest) none dest = _
        rw [set_apply, if_neg (ne_partOf dest), set_apply, if_pos rfl]
        exact whole
  · exact inv

theorem unlink_inv (fault : Bool) : Inv hash w₀ (w.unlink fault) := by
  unfold World.unlink
  split
  · rename_i j dest is
    have part : w.phase.part = some (partOf dest) := by rw [is]; rfl
    obtain ⟨here, unfiled, there⟩ : w.olds j.o = some (.file j.body) ∧ Unfiled hash w₀ w j ∧
        w.inbox dest = some (.file j.body) := inv.owns is
    split
    · exact inv.goes is nofun rfl rfl rfl (Stays.same rfl (.inl part.symm)) rfl here fun _ _ _ left => left
    · exact inv.gone is nofun here rfl rfl rfl (Stays.same rfl (.inl part.symm)) rfl
        (.inr (.inr ⟨j, dest, rfl, rfl, rfl⟩)) ⟨if_pos rfl, unfiled.gone rfl, there, inv.shrinks _ _ here⟩
        fun _ left => left
  · exact inv

theorem clear_inv (fault : Bool) : Inv hash w₀ (w.clear fault) := by
  unfold World.clear
  dsimp only
  have stays {w' : World} {dest : String} (part : w.phase.part = some (partOf dest)) (none_ : w'.phase.part = none)
      (inbox : w'.inbox = if fault then w.inbox else set w.inbox (partOf dest) none) : Stays w w' := by
    cases fault with
    | true => exact Stays.same inbox (.inr none_)
    | false => exact Stays.part part inbox (.inr none_)
  split
  · rename_i j dest is
    have part : w.phase.part = some (partOf dest) := by rw [is]; rfl
    obtain ⟨gone, unfiled, there, was⟩ : w.olds j.o = none ∧ Unfiled hash w₀ w j ∧
        w.inbox dest = some (.file j.body) ∧ w₀.olds j.o = some (.file j.body) := inv.owns is
    refine inv.goes is nofun rfl rfl rfl (stays part rfl rfl) rfl ⟨gone, unfiled, ?_, was⟩ fun _ _ _ left => left
    cases fault with
    | true => exact there
    | false =>
        change set w.inbox (partOf dest) none dest = _
        rw [set_apply, if_neg (ne_partOf dest)]
        exact there
  · rename_i j dest is
    have part : w.phase.part = some (partOf dest) := by rw [is]; rfl
    exact inv.goes is nofun rfl rfl rfl (stays part rfl rfl) rfl trivial fun _ _ _ _ => .inr rfl
  · exact inv

theorem record_inv (fault : Bool) (meets : w.Meets hash (.record fault)) :
    Inv hash w₀ (w.record hash fault) := by
  obtain rfl : fault = false := meets
  unfold World.record
  split
  · rename_i j dest is
    have pending : w.phase.pending = some (j, dest) := by rw [is]; rfl
    obtain ⟨gone, unfiled, there, was⟩ : w.olds j.o = none ∧ Unfiled hash w₀ w j ∧
        w.inbox dest = some (.file j.body) ∧ w₀.olds j.o = some (.file j.body) := inv.owns is
    rw [if_neg (by decide : ¬ false = true)]
    exact
      { shrinks := inv.shrinks
        safe := by
          intro o bytes first
          have filedNow : Filed hash
              { w with
                phase := .linking j (.inbox dest)
                receipts := set w.receipts (hash j.body)
                  (some ⟨hash j.body, plainName (hash j.body) j.o.leaf, .inbox dest, j.body.length, "", j.atMs⟩) } j.body :=
            ⟨_, dest, if_pos rfl, rfl, rfl, there, nofun⟩
          by_cases its : o = j.o
          · subst its
            cases first.symm.trans was
            exact .inr (.inl filedNow)
          · obtain here | filed | ⟨k, dest', on, other, _⟩ := inv.safe o bytes first
            · exact .inl here
            · by_cases same : hash bytes = hash j.body
              · exact .inl (unfiled o bytes its first same)
              · exact .inr (.inl (filed.stays (Stays.same rfl (.inr rfl)) (if_neg same)))
            · cases pending.symm.trans on
              exact absurd other.symm its
        own := gone
        left := fun o bytes here seen => (is ▸ inv.left o bytes here seen : (Phase.recording j dest).Left o)
        quiet := fun mark => absurd mark (inv.unmarked is nofun)
        marked := fun mark => absurd mark (inv.unmarked is nofun) }
  · exact inv

theorem link_inv (fault : Bool) : Inv hash w₀ (w.link fault) := by
  unfold World.link
  split
  · rename_i j path is
    have gone : w.olds j.o = none := inv.owns is
    have files (o : Old) (bytes : Bytes) :
        (if fault then w.olds else set w.olds j.o (some (.link path))) o = some (.file bytes) ↔
          w.olds o = some (.file bytes) := by
      cases fault with
      | true => exact .rfl
      | false =>
          change set w.olds j.o (some (.link path)) o = _ ↔ _
          rw [set_apply]
          split
          · rename_i same
            rw [same, gone]
            exact ⟨nofun, nofun⟩
          · exact .rfl
    exact
      { shrinks := fun o bytes here => inv.shrinks o bytes ((files o bytes).mp here)
        safe := by
          intro o bytes first
          obtain here | filed := inv.kept is rfl first
          · exact .inl ((files o bytes).mpr here)
          · exact .inr (.inl (filed.stays (Stays.same rfl (.inr rfl)) rfl))
        own := trivial
        left := by
          intro o bytes here seen
          have here := (files o bytes).mp here
          have left := inv.left o bytes here seen
          rw [is] at left
          obtain rfl | rest := left
          · cases gone.symm.trans here
          · exact rest
        quiet := fun mark => absurd mark (inv.unmarked is nofun)
        marked := fun mark => absurd mark (inv.unmarked is nofun) }
  · exact inv

/-- The run is at no file, and only the mark may be another. -/
theorem Inv.rests (is : w.phase = p) (still : p.pending = none) (olds : w'.olds = w.olds)
    (inbox : w'.inbox = w.inbox) (receipts : w'.receipts = w.receipts) (part : w'.phase.part = none)
    (own : Own hash w₀ w') (left : ∀ o bytes, w.olds o = some (.file bytes) →
      o.visible = true → w'.phase.Left o) (quiet : w'.mark = true → w'.phase = .idle)
    (marked : w'.mark = true → w₀.mark = true ∨ ∀ o bytes, w₀.olds o = some (.file bytes) → o.visible = true →
      Filed hash w bytes) : Inv hash w₀ w' where
  shrinks := fun o bytes is => inv.shrinks o bytes (olds ▸ is)
  safe := fun o bytes first => (inv.kept is still first).imp (fun here => olds ▸ here)
    fun filed => .inl (filed.stays (Stays.same inbox (.inr part)) (by rw [receipts]))
  own := own
  left := fun o bytes here => left o bytes (olds ▸ here)
  quiet := quiet
  marked := fun mark => (marked mark).imp_right fun all o bytes first seen =>
    (all o bytes first seen).stays (Stays.same inbox (.inr part)) (by rw [receipts])

theorem finish_inv (fault : Bool) : Inv hash w₀ (w.finish fault) := by
  unfold World.finish
  split
  · rename_i stuck moved is
    have unmarked : w.mark = false := Bool.eq_false_iff.mpr (inv.unmarked is nofun)
    refine inv.rests is rfl rfl rfl rfl rfl trivial (fun _ _ _ _ => trivial) (fun _ => rfl) fun mark => .inr ?_
    intro o bytes first seen
    have free : stuck = false := by
      have ends : stuck = false ∧ fault = false := by simpa [unmarked] using mark
      exact ends.1
    obtain here | filed := inv.kept is rfl first
    · have left := inv.left o bytes here seen
      rw [is, free] at left
      obtain mem | stuck := left
      · cases mem
      · cases stuck
    · exact filed
  · exact inv

theorem run_inv (todo : List Old) (meets : w.Meets hash (.run todo)) :
    Inv hash w₀ (w.step hash (.run todo)) := by
  unfold World.step
  dsimp only
  split
  · rename_i is
    split
    · exact inv
    · rename_i unmarked
      exact inv.rests is rfl rfl rfl rfl rfl trivial (fun o bytes here seen => .inl (meets o bytes here seen))
        (fun mark => absurd mark unmarked) fun mark => absurd mark unmarked
  · exact inv

theorem kill_inv (meets : w.Meets hash .kill) : Inv hash w₀ { w with phase := .idle } := by
  have pending : w.phase.pending = none := by
    cases is : w.phase with
    | settled | recording => exact absurd (by rw [is]; trivial) meets
    | _ => rfl
  exact inv.rests rfl pending rfl rfl rfl rfl trivial (fun _ _ _ _ => trivial) (fun _ => rfl) inv.marked

end

/-! ### Runs -/

theorem Inv.step {w₀ w : World} {e : Event} (meets : w.Meets hash e) (inv : Inv hash w₀ w) : Inv hash w₀ (w.step hash e) := by
  cases e with
  | run todo => exact run_inv inv todo meets
  | take fault atMs => exact take_inv inv fault atMs
  | check => exact check_inv inv meets
  | drop fault => exact drop_inv inv fault
  | reserve fault => exact reserve_inv inv fault
  | rename fault => exact rename_inv inv fault
  | copy fault => exact copy_inv inv fault
  | place fault => exact place_inv inv fault
  | unlink fault => exact unlink_inv inv fault
  | clear fault => exact clear_inv inv fault
  | record fault => exact record_inv inv fault meets
  | link fault => exact link_inv inv fault
  | finish fault => exact finish_inv inv fault
  | kill => exact kill_inv inv meets

theorem start_inv (idle : w₀.phase = .idle) : Inv hash w₀ w₀ where
  shrinks := fun _ _ is => is
  safe := fun _ _ is => .inl is
  own := by
    unfold Own
    rw [idle]
    trivial
  left := by
    intro _ _ _ _
    rw [idle]
    trivial
  quiet := fun _ => idle
  marked := .inl

theorem Inv.moved (inv : Inv hash w₀ w) : Moved hash w₀ w where
  kept := by
    intro o bytes first
    obtain here | ⟨_, name, _, _, _, there, _⟩ | ⟨j, dest, on, _, body⟩ := inv.safe o bytes first
    · exact .inl here
    · exact .inr ⟨name, there⟩
    · have own := inv.own
      unfold Own at own
      cases is : w.phase with
      | settled | recording =>
          rw [is] at own on
          cases on
          exact .inr ⟨dest, body ▸ own.2.2.1⟩
      | _ => rw [is] at on; cases on
  found := by
    intro unmarked mark o bytes first seen
    obtain marked | all := inv.marked mark
    · exact absurd (unmarked.symm.trans marked) (by decide)
    · obtain ⟨r, _, is, _, _, reads⟩ := (all o bytes first seen).receipt
      refine ⟨r, is, reads, ?_⟩
      unfold landed
      rw [is]

/-- In every run that meets the condition, kills and further runs of the move included. -/
theorem move_keeps_bytes (hash : Bytes → String) {w₀ w : World} (idle : w₀.phase = .idle)
    (run : Runs (World.step hash) (World.Meets hash) w₀ w) : Moved hash w₀ w :=
  (run.invariant Inv.step (start_inv idle)).moved

end Moving

/-- A stand-in for blake3 that tells all contents apart. -/
def plainHash (bytes : Bytes) : String := String.ofList (bytes.map fun b => Char.ofNat b.toNat)

def oldLeaf : Old := ⟨"box", "0-a", true⟩

/-- One file in a conversation folder, and in the receive directory one of its name. -/
def oneOld (receipts : String → Option Receipt) : World where
  olds := set (fun _ => none) oldLeaf (some (.file [48]))
  inbox := set (fun _ => none) "a" (some (.file [49]))
  elsewhere := fun _ => none
  receipts
  mark := false
  phase := .idle

/-- The file goes beside the one that has its name. -/
theorem move_keeps_bytes_oneOld :
    Moved plainHash (oneOld fun _ => none)
      ([.run [oldLeaf], .take false 5, .check, .reserve false, .rename false, .clear false, .record false,
        Event.link false, .finish false].foldl (World.step plainHash) (oneOld fun _ => none)) := by
  refine move_keeps_bytes plainHash rfl (Fits.runs ?_)
  refine ⟨?_, trivial, ?_, trivial, trivial, trivial, rfl, trivial, trivial, trivial⟩
  · intro o bytes is _
    have is : (if o = oldLeaf then some (Entry.file [48]) else none) = some (.file bytes) := is
    split at is
    · rename_i same
      rw [same]
      exact .head _
    · cases is
  · intro j r is found
    cases is
    cases found

/-- The word of a receipt whose file was edited is taken, and the bytes are lost; a kill before the receipt leaves a
file that is not found. -/
theorem move_loses_bytes :
    (∃ w₀ w, w₀.phase = .idle ∧ Runs (World.step plainHash) (fun _ _ => True) w₀ w ∧ ¬ Moved plainHash w₀ w ∧
      w₀.olds oldLeaf = some (.file [48]) ∧ w.inbox "a" = some (.file [49])) ∧
    ∃ w₀ w, w₀.phase = .idle ∧ Runs (World.step plainHash) (fun _ _ => True) w₀ w ∧ ¬ Moved plainHash w₀ w ∧
      w.mark = true ∧ receipt w (plainHash [48]) = none := by
  constructor
  · let w₀ := oneOld (set (fun _ => none) "0" (some ⟨"0", "a", .inbox "a", 1, "", 3⟩))
    have run := @Fits.runs _ _ (World.step plainHash) (fun _ _ => True) w₀
      [.run [oldLeaf], .take false 5, .check, .drop false, .link false, .finish false]
      ⟨trivial, trivial, trivial, trivial, trivial, trivial, trivial⟩
    refine ⟨w₀, _, rfl, run, fun moved => ?_, rfl, rfl⟩
    obtain here | ⟨name, there⟩ := moved.kept oldLeaf [48] rfl
    · cases here
    · have there : (if name = "a" then some (Entry.file [49]) else none) = some (.file [48]) := there
      split at there <;> cases there
  · have run := @Fits.runs _ _ (World.step plainHash) (fun _ _ => True) (oneOld fun _ => none)
      [.run [oldLeaf], .take false 5, .check, .reserve false, .rename false, .kill, .run [], .finish false]
      ⟨trivial, trivial, trivial, trivial, trivial, trivial, trivial, trivial, trivial⟩
    refine ⟨_, _, rfl, run, fun moved => ?_, rfl, rfl⟩
    obtain ⟨r, is, _⟩ := moved.found rfl rfl oldLeaf [48] rfl rfl
    cases is

end Khor.Moving
