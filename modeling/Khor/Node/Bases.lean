/-
Module: Khor.Node.Bases
Purpose: In every run of a journal its published bases are found whole, and only grow.
Trusted boundary: a record is written on one line
Main exports: Good, Good.step, World.Loading, find_whole, bases_append_only
-/
import Khor.Node.JournalRules

namespace Khor.Node.Journal

open Script

section Runs

variable {N : Type} {x : Externals N} {identity : Identity} {careful : Prop} {w w' : World N}

/-- What holds of a world: between two operations the journal is idle, and an operation under way comes to
that again. -/
def Good (x : Externals N) (identity : Identity) (careful : Prop) (w : World N) : Prop :=
  match w.running with
  | none => Idle x identity w.owed careful w.machine
  | some (request, p) => p.Holds (terms x identity request.Loads w.owed careful)
      (fun r t => Idle x identity (request.settle w.owed r) careful t ∧ request.Answered x w.owed r t)
      w.machine

theorem Good.idle (good : Good x identity careful w) (idle : w.running = none) :
    Idle x identity w.owed careful w.machine := by
  unfold Good at good
  rw [idle] at good
  exact good

theorem Good.holds (good : Good x identity careful w) {request : Request N} {p : Op N Unit}
    (running : w.running = some (request, p)) :
    p.Holds (terms x identity request.Loads w.owed careful)
      (fun r t => Idle x identity (request.settle w.owed r) careful t ∧ request.Answered x w.owed r t)
      w.machine := by
  unfold Good at good
  rw [running] at good
  exact good

theorem Good.rest (good : Good x identity careful w) : Rest x identity w.owed careful w.machine := by
  cases running : w.running with
  | none => exact (good.idle running).rest
  | some now => exact (good.holds running).rest

/-- A load is under way, or its base is being filled. -/
def World.Loading (w : World N) : Prop :=
  (∃ request p, w.running = some (request, p) ∧ request.Loads) ∨ w.machine.Filling

theorem killed_rest {owed : List String} {s : Machine N} (rest : Rest x identity owed careful s) :
    Rest x identity owed careful (World.killed s) := by
  refine rest.aside (rest.disk.of_same rfl rfl rfl rfl rfl rfl fun i => ?_) rfl (fun _ _ => rfl) rfl
  have cut := rest.disk.cuts i
  simp only [World.killed]
  cases writing : s.writing with
  | none =>
      rw [writing] at cut
      exact cut
  | some k =>
      rw [writing] at cut
      by_cases here : k = i
      · subst here
        simpa using cut
      · rw [if_neg fun eq => here (Option.some.inj eq)] at cut
        simpa [Function.update_of_ne fun eq : i = k => here eq.symm] using cut

theorem Good.init : Good x identity careful (.init : World N) where
  rest :=
    { disk := {
        based := nofun
        known := nofun
        apart := nofun
        selected := nofun
        shown := fun _ => rfl
        fresh := fun _ _ => ⟨rfl, rfl⟩
        cuts := fun _ => Nat.zero_le _ }
      owes := nofun
      fair := fun _ _ ⟨before, after, _, _, _, same, _⟩ => by cases before <;> cases same }
  quiet := rfl
  seated := nofun
  filling _ := rfl

/-- What a step keeps, and what it may do to the files. -/
theorem Good.step (lawful : x.Lawful) (ready : careful → w.machine.journal = none →
    ¬ Between x w.machine) (good : Good x identity careful w) (step : World.Step x identity w w') :
    Good x identity careful w' ∧ Own x (∃ request p, w.running = some (request, p) ∧ request.Loads)
      w.machine w'.machine := by
  cases step with
  | start request idle permitted =>
      exact ⟨Request.holds lawful (good.idle idle) ready request permitted, Own.refl⟩
  | @call request c next answer t running does =>
      obtain ⟨own, after⟩ := (good.holds running).2 _ answer t rfl does
      refine ⟨after, own.extends_, fun loads => own.unchanged (loads.imp ?_ id), own.calm⟩
      rintro ⟨request', p, same, now⟩
      rw [running] at same
      cases same
      exact now
  | finish running => exact ⟨(good.holds running).2.1, Own.refl⟩
  | kill =>
      refine ⟨?_, Own.aside (fun _ _ => rfl) rfl rfl⟩
      exact Idle.of_none (killed_rest good.rest) rfl rfl

theorem Good.reaches (lawful : x.Lawful) (reached : World.Reaches x identity .init w) :
    Good x identity False w := by
  induction reached with
  | refl => exact Good.init
  | tail _ step ih => exact (ih.step lawful False.elim step).1

theorem Extends.refl (s : Machine N) : Extends s s :=
  fun _ dir _ there => ⟨dir, there, rfl, fun _ _ => List.prefix_rfl⟩

theorem Extends.trans {s t u : Machine N} (one : Extends s t) (two : Extends t u) : Extends s u := by
  intro l dir ne there
  obtain ⟨dir', there', same, grown⟩ := one l dir ne there
  obtain ⟨dir'', there'', same', grown'⟩ := two l dir' ne there'
  exact ⟨dir'', there'', same'.trans same, fun i at_ =>
    (grown i at_).trans (grown' i (same.trans at_))⟩

theorem extends_of_reaches (lawful : x.Lawful) (good : Good x identity False w)
    (reached : World.Reaches x identity w w') : Extends w.machine w'.machine := by
  have both : Good x identity False w' ∧ Extends w.machine w'.machine := by
    induction reached with
    | refl => exact ⟨good, Extends.refl _⟩
    | tail _ step ih =>
        obtain ⟨good', own⟩ := ih.1.step lawful False.elim step
        exact ⟨good', ih.2.trans own.extends_⟩
  exact both.2

/-- The records whose append has ended stand in their order among the lines. -/
theorem whole_sublist (log : List (Appended N)) :
    ((whole log).map x.toWriter).Sublist (log.flatMap (shown x)) := by
  induction log with
  | nil => exact .slnil
  | cons a log ih =>
      obtain ⟨r, torn⟩ := a
      cases torn with
      | none => exact ih.cons_cons (x.toWriter r)
      | some n => exact ih.trans (List.sublist_append_right _ _)

/-- An append that was cut short leaves at most one line. -/
theorem shown_torn (lawful : x.Lawful) (r : Record N) (n : Nat) : (shown x ⟨r, some n⟩).length ≤ 1 := by
  have plain : newline ∉ x.toWriter r := lawful.plain r
  by_cases short : n ≤ (x.toWriter r).length
  · have same : (line x r).take n = (x.toWriter r).take n := by
      rw [line, List.take_append_of_le_length short]
    rw [shown, same, lines_scrap fun mem => plain (List.mem_of_mem_take mem)]
    split <;> simp
  · have same : (line x r).take n = line x r := by
      refine List.take_of_length_le ?_
      simp only [line, List.length_append, List.length_singleton]
      omega
    rw [shown, same, line, lines_record plain]
    exact Nat.le_refl 1

/-- A reader finds no base, or the one that the pointer names. -/
theorem find_whole {s : Machine N} (disk : Disk x identity s) :
    (find identity s = .ok none ∧ s.dirs s.selected = none) ∨ ∃ m i,
      find identity s = .ok (some ⟨s.selected, m⟩) ∧ folderOf m.generation = s.selected ∧
      s.recordsAt s.selected = some i ∧ s.published s.selected <+: whole (s.log i) := by
  have found : ∀ g : Option String, g.all validateGeneration = true →
      (s.dirs (folderOf g) = none ∧ findGeneration identity s g = .ok none) ∨ ∃ m i,
        findGeneration identity s g = .ok (some ⟨folderOf g, m⟩) ∧ folderOf m.generation = folderOf g ∧
        s.recordsAt (folderOf g) = some i ∧ s.published (folderOf g) <+: whole (s.log i) := by
    intro g valid
    cases there : s.dirs (folderOf g) with
    | none =>
        left
        refine ⟨rfl, ?_⟩
        simp [findGeneration, valid, Machine.manifestAt, there]
    | some dir =>
        right
        obtain ⟨⟨m, manifest, v, named, generation⟩, i, records, kept⟩ :=
          disk.based _ dir (folderOf_ne_pending g) there
        refine ⟨m, i, ?_, generation, by simp [Machine.recordsAt, there, records], kept⟩
        simp [findGeneration, valid, Machine.manifestAt, there, manifest, v, named, folderOf_inj generation]
  unfold find
  cases active : s.active with
  | none =>
      have selected : s.selected = folderOf none := by simp [Machine.selected, active]
      rw [selected]
      exact (found none rfl).imp And.symm id
  | some a =>
      obtain ⟨v, valid, _⟩ := disk.selected a active
      have selected : s.selected = folderOf (some a.generation) := by simp [Machine.selected, active]
      rw [selected]
      simp only [v, if_true]
      exact (found (some a.generation) valid).imp And.symm id

/-- The bases of a journal in any run, wherever its writer is killed. A reader finds none, or one whose
manifest names its own generation and whose record file has every record that was appended before its
publication, in order. A base that is published stays, and its record file only grows; while a load is
under way or fills its own base, no published base changes. And each record file splits into the records
appended to it, in order, but for one line at most for each append that a kill cut short. -/
theorem bases_append_only (lawful : x.Lawful) (reached : World.Reaches x identity .init w) :
    (find identity w.machine = .ok none ∨ ∃ source i, find identity w.machine = .ok (some source) ∧
      source.folder = folderOf source.manifest.generation ∧ w.machine.recordsAt source.folder = some i ∧
      ((w.machine.published source.folder).map x.toWriter).Sublist (lines (w.machine.files i))) ∧
    (∀ w', World.Reaches x identity w w' → Extends w.machine w'.machine) ∧
    (∀ w', World.Step x identity w w' → w.Loading → Unchanged w.machine w'.machine) ∧
    ∀ i, lines (w.machine.files i) = (w.machine.log i).flatMap (shown x) ∧
      (∀ r, shown x ⟨r, none⟩ = [x.toWriter r]) ∧
      (∀ r n, (shown x ⟨r, some n⟩).length ≤ 1) ∧
      (torn (w.machine.log i)).length ≤
        w.machine.kills i + if w.machine.writing = some i then 1 else 0 := by
  have good := Good.reaches lawful reached
  have disk := good.rest.disk
  refine ⟨?_, fun w' => extends_of_reaches lawful good, fun w' step loading =>
    (good.step lawful False.elim step).2.unchanged loading, fun i =>
    ⟨disk.shown i, fun _ => rfl, shown_torn lawful, disk.cuts i⟩⟩
  rcases find_whole disk with ⟨none_, _⟩ | ⟨m, i, found, named, records, kept⟩
  · exact .inl none_
  · refine .inr ⟨_, i, found, named.symm, records, ?_⟩
    rw [disk.shown i]
    exact (kept.sublist.map x.toWriter).trans (whole_sublist _)

end Runs

/-! ### One conversation -/

def ascii (text : String) : Bytes := text.toList.map fun c => UInt8.ofNat c.toNat

/-- The records of the runs below as serde_json writes them. -/
def json : Record Unit → Bytes
  | .prompt "t" "hi" [] [] =>
      ascii "\x7b\"kind\":\"prompt\",\"turn\":\"t\",\"text\":\"hi\",\"images\":[],\"files\":[]\x7d"
  | .turn "t" .ended none =>
      ascii "\x7b\"kind\":\"turn\",\"turn\":\"t\",\"outcome\":\"ended\",\"detail\":null\x7d"
  | .gap .resume (some "t") false =>
      ascii "\x7b\"kind\":\"gap\",\"opening\":\"resume\",\"interrupted_turn\":\"t\",\"incomplete_record\":false\x7d"
  | .gap .resume none false =>
      ascii "\x7b\"kind\":\"gap\",\"opening\":\"resume\",\"interrupted_turn\":null,\"incomplete_record\":false\x7d"
  | .gap .load none false =>
      ascii "\x7b\"kind\":\"gap\",\"opening\":\"load\",\"interrupted_turn\":null,\"incomplete_record\":false\x7d"
  | _ => ascii "\x7b\x7d"

def someExternals : Externals Unit := ⟨json, fun _ => 65⟩

theorem someExternals_lawful : someExternals.Lawful where
  plain r := by
    change newline ∉ json r
    unfold json
    split <;> decide
  filled r := by
    change json r ≠ []
    unfold json
    split <;> decide

def someIdentity : Identity := ⟨[], "acp", "s"⟩

/-- A base with one turn, and after it a load that was published. -/
def loaded : Option (World Unit) :=
  World.init.play someExternals someIdentity
    [(.openAs .new "", none), (.prepareBase, none), (.publishBase, none),
      (.accept "t" "hi" [] [] none, none), (.finish "t" .ended none, none), (.drop, none),
      (.openAs .load "0123456789abcdef0123456789abcdef", none), (.prepareBase, none), (.publishBase, none)]

theorem loaded_base_found : ∃ w, loaded = some w ∧ ∃ source i,
    find someIdentity w.machine = .ok (some source) ∧
      source.folder = folderOf source.manifest.generation ∧
      w.machine.recordsAt source.folder = some i ∧
      ((w.machine.published source.folder).map json).Sublist (lines (w.machine.files i)) := by
  have runs : loaded.isSome = true := by decide +kernel
  obtain ⟨w, is_⟩ := Option.isSome_iff_exists.1 runs
  refine ⟨w, is_, ?_⟩
  rcases (bases_append_only someExternals_lawful (World.play_reaches rfl is_)).1 with none_ | found
  · have some_ : loaded.map (fun w => (find someIdentity w.machine).toOption.join.isSome) = some true := by
      decide +kernel
    rw [is_] at some_
    simp [none_, Except.toOption] at some_
  · exact found

end Khor.Node.Journal
