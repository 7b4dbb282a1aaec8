/-
Module: Khor.Update.Untouched
Purpose: What collectors leave alone: a stage whose lease another process holds, and a stage without an
  authentic record of it or with a file that is not of a stage (crates/update/src/package_stage.rs).
Trusted boundary: none
Main exports: FreshRun, Inv.leased_untouched, Inv.held_untouched, Refuses, Inv.refused_untouched
-/
import Khor.Update.Keepers

namespace Khor.Update

variable {R : Type} {x : Externals R} {base : Nat} {w w' : World R} {disk disk' : Disk} {X Y name : String} {p q : Pid}
  {d : Dir}

/-- A run in which no downloader draws the name of a stage that some process is still at. -/
abbrev FreshRun (x : Externals R) : World R → World R → Prop :=
  Runs (World.step x) fun w e => World.Permits x w e ∧ w.Fresh e

namespace Inv

variable {file : File}

/-- The lease that a downloader holds is that of its stage. -/
theorem holder_at (inv : Inv x base w) (lease : w.disk.file? X "lease" = some file)
    (locked : w.disk.locks file.node = some q) {d : Downloader R} (is : w.procs q = some (.downloader d))
    (le : base ≤ file.node) : d.at_ = some X ∧ d.leaving = false := by
  obtain ⟨proc, there, handle⟩ := inv.held _ q locked
  rw [is] at there
  cases there
  have known : d.Local x base q w.disk := inv.known q _ is
  have same {Y : String} (mine : w.disk.file? Y "lease" = some ⟨file.node, true⟩) : Y = X := by
    obtain low | ⟨same, _⟩ := inv.apart Y _ _ X _ _ mine lease rfl
    · dsimp only at low
      omega
    · exact same
  cases d with
  | openRecord | write =>
      cases handle
      exact ⟨congrArg some (same (known.2.2.2.1 _)), rfl⟩
  | staged | close =>
      cases handle
      exact ⟨congrArg some (same known.2.1), rfl⟩
  | tempdir | permissions | openLease | lockLease | list | clear | rmdir => cases handle

/-- A collector removes nothing but the lease where the lease is locked by another process. -/
theorem leased_files (inv : Inv x base w) {o : One} {left : List (String × Bool)} {bytes : Nat} (listed : List String)
    (is : w.procs p = some (.collector (.one Y left bytes o))) (lease : w.disk.file? X "lease" = some file)
    (locked : w.disk.locks file.node = some q) (ne : q ≠ p) (other : name ≠ "lease") :
    (o.step x p Y listed w.disk).2.file? X name = w.disk.file? X name := by
  have takes : One.Takes p Y w.disk (o.entered = true) (o.step x p Y listed w.disk).2 := o.takes
  have known : o.Local base p w.disk Y := inv.known p _ is
  by_cases here : X = Y
  · subst here
    have mine {node : Nat} (handle : Handle base w.disk X node) (own : w.disk.locks node = some p) : False := by
      rw [handle.lease file lease, own] at locked
      exact ne (Option.some.inj locked).symm
    cases o with
    | assets | record | drop => exact (mine known.1 known.2.1).elim
    | lease bytes =>
        simp only [One.step]
        split
        · simp only [Disk.file?_unlink]
          exact if_neg other
        · rfl
    | rmdir bytes =>
        have none_ := known "lease" lease_known (lease ▸ rfl)
        cases none_
    | metadata | list | sizes | recordMetadata | recordOpen | recordRead | leaseMetadata | leaseOpen | tryLock =>
        exact Disk.file?_congr (Disk.dir?_of_root (takes.reads (by rintro ⟨⟩)))
  · exact takes.op.file?_ne here

theorem Collector.one_disk {left : List (String × Bool)} {bytes : Nat} {o : One} {listed : List String} :
    ((Collector.one Y left bytes o).step x p listed disk).2 = (o.step x p Y listed disk).2 := by
  simp only [Collector.step]
  generalize o.step x p Y listed disk = result
  obtain ⟨outcome, disk'⟩ := result
  cases outcome <;> rfl

/-- A stage whose lease another process holds keeps its files, and where that process is a downloader it keeps all there
is of it. -/
theorem leased_untouched (inv : Inv x base w) {c : Collector} {a : Act} (is : w.procs p = some (.collector c))
    (lease : w.disk.file? X "lease" = some file) (locked : w.disk.locks file.node = some q) (ne : q ≠ p) :
    (∀ name, name ≠ "lease" → (w.step x (.act p a)).disk.file? X name = w.disk.file? X name) ∧
      (w.step x (.act p a)).disk.data = w.disk.data ∧
      ∀ d, w.procs q = some (.downloader d) → base ≤ file.node →
        (w.step x (.act p a)).disk.dir? X = w.disk.dir? X := by
  simp only [World.step, World.act, is]
  change (∀ name, name ≠ "lease" → (c.step x p a.names w.disk).2.file? X name = w.disk.file? X name) ∧
    (c.step x p a.names w.disk).2.data = w.disk.data ∧ ∀ d, w.procs q = some (.downloader d) → base ≤ file.node →
      (c.step x p a.names w.disk).2.dir? X = w.disk.dir? X
  cases c with
  | root | done => exact ⟨fun _ _ => rfl, rfl, fun _ _ _ => rfl⟩
  | next left bytes =>
      cases left with
      | nil => exact ⟨fun _ _ => rfl, rfl, fun _ _ _ => rfl⟩
      | cons entry left =>
          obtain ⟨Y, isDir⟩ := entry
          simp only [Collector.step]
          split <;> exact ⟨fun _ _ => rfl, rfl, fun _ _ _ => rfl⟩
  | one Y left bytes o =>
      have files {name : String} (other : name ≠ "lease") := inv.leased_files a.names is lease locked ne other
      have takes : One.Takes p Y w.disk (o.entered = true) (o.step x p Y a.names w.disk).2 := o.takes
      rw [Collector.one_disk]
      refine ⟨fun name => files, takes.data, fun d there le => ?_⟩
      obtain ⟨at_, stays⟩ := inv.holder_at lease locked there le
      by_cases here : X = Y
      · subst here
        refine Disk.dir?_of_root (takes.reads fun inside => ?_)
        rw [(inv.pair p q _ _ (Ne.symm ne) is there at_).2 inside] at stays
        cases stays
      · exact takes.op.dir? here

/-! ### A stage that is not taken -/

/-- A downloader writes only in the files of its stage that were made for it. -/
theorem downloads_data {d : Downloader R} {a : Act} (known : d.Local x base p w.disk)
    (able : d.Able w.disk a) {node : Nat} (old : node < w.disk.nodes)
    (elsewhere : ∀ name file, d.place a = some X → w.disk.file? X name = some file → base ≤ file.node → file.node ≠ node)
    (place : d.place a = some X) : (d.step x p w.disk a).2.data node = w.disk.data node := by
  cases able with
  | tempdir | lockLease | written | finished | permissionsFails | openLeaseFails | lockLeaseFails | openRecordFails
  | writeFails | close => rfl
  | permissions =>
      simp only [Downloader.step, Disk.data_chmod]
  | openLease =>
      obtain ⟨_, ⟨dir, there, _⟩, _⟩ := known
      simp only [Downloader.step, Disk.data_create there]
      exact if_neg (Nat.ne_of_lt old)
  | openRecord =>
      obtain ⟨_, ⟨dir, there, _⟩, _⟩ := known
      simp only [Downloader.step]
      split
      · rfl
      · rw [Disk.data_create there]
        exact if_neg (Nat.ne_of_lt old)
  | write =>
      cases place
      obtain ⟨_, _, le, only, _⟩ := known
      exact if_neg fun same => elsewhere "owner.json" ⟨_, true⟩ rfl (only "owner.json") le same.symm
  | create =>
      obtain ⟨dir, there, _⟩ := known.1.isPrivate
      simp only [Downloader.step, Disk.data_create there]
      exact if_neg (Nat.ne_of_lt old)
  | append =>
      cases place
      simp only [Downloader.step]
      split
      · rename_i file there
        exact if_neg fun same => elsewhere _ file rfl there (known.1.known _ _ there).2.2 same.symm
      · rfl
  | moveAway =>
      simp only [Downloader.step, Disk.data_unlink]
  | list =>
      simp only [Downloader.step]
      split <;> rfl
  | @clear X names =>
      cases names with
      | nil => rfl
      | cons name names => simp only [Downloader.step, Disk.data_unlink]
  | rmdir =>
      simp only [Downloader.step]
      split
      · split <;> rfl
      · rfl

end Inv

/-- The record of a stage, if it has one, is not an authentic record that names it. -/
def Unrecorded (x : Externals R) (disk : Disk) (X : String) : Prop :=
  ∀ file, disk.file? X "owner.json" = some file → One.accepts x X (disk.data file.node) = false

/-- A stage that `collect_one` does not take. -/
def Refuses (x : Externals R) (disk : Disk) (X : String) : Prop :=
  (∃ name, (disk.file? X name).isSome = true ∧ name ∉ FILES) ∨ Unrecorded x disk X

/-- How far a collector comes in such a stage. -/
def Stopped (x : Externals R) (disk : Disk) (X : String) : One → Prop
  | .metadata | .list => True
  | .sizes names _ => (∃ name ∈ names, name ∉ FILES) ∨ Unrecorded x disk X
  | .recordMetadata _ | .recordOpen _ => Unrecorded x disk X
  | .recordRead node _ => Unrecorded x disk X ∧ ∃ file, disk.file? X "owner.json" = some file ∧ file.node = node
  | _ => False

/-- The stage is as it was: its files and what they hold. -/
structure Same (X : String) (disk disk' : Disk) : Prop where
  dir : disk'.dir? X = disk.dir? X
  data : ∀ name file, disk.file? X name = some file → disk'.data file.node = disk.data file.node

namespace Same

section

variable (h : Same X disk disk')
include h

theorem file? : disk'.file? X name = disk.file? X name :=
  Disk.file?_congr h.dir

theorem unrecorded (un : Unrecorded x disk X) : Unrecorded x disk' X := fun file there => by
  rw [h.file?] at there
  rw [h.data _ file there]
  exact un file there

theorem refuses (no : Refuses x disk X) : Refuses x disk' X := by
  refine no.imp (fun ⟨name, there, foreign⟩ => ⟨name, ?_, foreign⟩) h.unrecorded
  rw [h.file?]
  exact there

theorem stopped {o : One} (stops : Stopped x disk X o) : Stopped x disk' X o := by
  cases o with
  | metadata | list => trivial
  | sizes names bytes => exact stops.imp id h.unrecorded
  | recordMetadata | recordOpen => exact h.unrecorded stops
  | recordRead node bytes =>
      obtain ⟨un, file, there, node_⟩ := stops
      exact ⟨h.unrecorded un, file, h.file?.trans there, node_⟩
  | leaseMetadata | leaseOpen | tryLock | assets | record | drop | lease | rmdir => exact stops

theorem trans {disk'' : Disk} (h' : Same X disk' disk'') : Same X disk disk'' where
  dir := h'.dir.trans h.dir
  data := fun name file there => by
    rw [h'.data name file (h.file?.trans there), h.data name file there]

end

end Same

/-- A collector in a stage that it does not take changes nothing and comes no further. -/
theorem Stopped.step {o : One} (p : Pid) (listed : List String) (no : Refuses x disk X) (stops : Stopped x disk X o)
    (able : o = .list → ∀ d, disk.dir? X = some d → listed.Perm d.files.keys) :
    (o.step x p X listed disk).2 = disk ∧ ∀ o', (o.step x p X listed disk).1 = .goes o' → Stopped x disk X o' := by
  cases o with
  | metadata =>
      simp only [One.step]
      split
      · split
        · refine ⟨rfl, ?_⟩
          rintro _ ⟨⟩
          trivial
        · exact ⟨rfl, by simp⟩
      · exact ⟨rfl, by simp⟩
  | list =>
      simp only [One.step]
      split
      · rename_i d there
        refine ⟨rfl, ?_⟩
        rintro _ ⟨⟩
        rcases no with ⟨name, found, foreign⟩ | no
        · rw [Disk.file?_of_dir? there] at found
          exact .inl ⟨name, (able rfl d there).mem_iff.mpr (AList.mem_keys.mp (AList.lookup_isSome.mp found)), foreign⟩
        · exact .inr no
      · exact ⟨rfl, by simp⟩
  | sizes names bytes =>
      cases names with
      | nil =>
          refine ⟨rfl, ?_⟩
          rintro _ ⟨⟩
          rcases stops with ⟨_, mem, _⟩ | stops
          · exact absurd mem List.not_mem_nil
          · exact stops
      | cons name names =>
          simp only [One.step]
          split
          · exact ⟨rfl, by simp⟩
          · rename_i known
            split
            · refine ⟨rfl, ?_⟩
              rintro _ ⟨⟩
              rcases stops with ⟨other, mem, foreign⟩ | stops
              · refine .inl ⟨other, (List.mem_cons.mp mem).resolve_left ?_, foreign⟩
                rintro rfl
                exact known foreign
              · exact .inr stops
            · exact ⟨rfl, by simp⟩
  | recordMetadata =>
      simp only [One.step]
      split
      · refine ⟨rfl, ?_⟩
        rintro _ ⟨⟩
        exact stops
      · exact ⟨rfl, by simp⟩
  | recordOpen =>
      simp only [One.step]
      split
      · rename_i file there
        refine ⟨rfl, ?_⟩
        rintro _ ⟨⟩
        exact ⟨stops, file, there, rfl⟩
      · exact ⟨rfl, by simp⟩
  | recordRead node bytes =>
      obtain ⟨un, file, there, rfl⟩ := stops
      have refused : One.accepts x X (disk.data file.node) = false := un file there
      simp only [One.step, refused]
      exact ⟨rfl, by simp⟩
  | leaseMetadata | leaseOpen | tryLock | assets | record | drop | lease | rmdir => exact stops.elim

/-- Those at the stage are collectors that stop there. -/
def OnlyStopped (x : Externals R) (w : World R) (X : String) : Prop :=
  ∀ p proc, w.procs p = some proc → proc.at_ = some X →
    ∃ left bytes o, proc = .collector (.one X left bytes o) ∧ Stopped x w.disk X o

namespace Inv

/-- A downloader that is not at the stage leaves it as it is. -/
theorem downloads_elsewhere (inv : Inv x base w) {e : Downloader R} {a : Act} (is : w.procs p = some (.downloader e))
    (able : e.Able w.disk a) (there : w.disk.dir? X = some d) (away : e.at_ ≠ some X) :
    e.place a ≠ some X ∧ Same X w.disk (e.step x p w.disk a).2 := by
  obtain ⟨Y, place⟩ := place_some able
  have known : e.Local x base p w.disk := inv.known p _ is
  have ne : X ≠ Y := by
    rintro rfl
    obtain here | ⟨b, draw⟩ := at_of_place able place
    · exact away here
    · subst draw
      cases able with
      | tempdir named free =>
          rw [Disk.dir?_of_notMem free] at there
          cases there
  have op : Op p Y w.disk (e.step x p w.disk a).2 := Downloader.op able known place
  refine ⟨fun here => ne (Option.some.inj (here.symm.trans place)), op.dir? ne, fun name file found => ?_⟩
  refine downloads_data known able (inv.old X name file found) (fun other file' _ mine le clash => ?_) place
  obtain low | ⟨same, _⟩ := inv.apart _ _ _ _ _ _ mine found clash
  · omega
  · exact ne same.symm

/-- So does a collector that is at another one. -/
theorem collects_elsewhere {o : One} {listed : List String} (ne : Y ≠ X) :
    Same X disk (o.step x p Y listed disk).2 := by
  have takes : One.Takes p Y disk (o.entered = true) (o.step x p Y listed disk).2 := o.takes
  exact ⟨takes.op.dir? (Ne.symm ne), fun _ _ _ => by rw [takes.data]⟩

/-- What a downloader has is touched by nobody else. -/
theorem held_untouched (inv : Inv x base w) {e : Downloader R} {ev : Event R} (is : w.procs q = some (.downloader e))
    {file : File} (lease : w.disk.file? X "lease" = some file) (locked : w.disk.locks file.node = some q)
    (le : base ≤ file.node) (permitted : World.Permits x w ev) (other : ∀ a, ev ≠ .act q a) :
    Same X w.disk (w.step x ev).disk := by
  obtain ⟨at_, _⟩ := inv.holder_at lease locked is le
  cases permitted with
  | download | collect | kill => exact ⟨rfl, fun _ _ _ => rfl⟩
  | @downloader p e' a is' able =>
      have ne : p ≠ q := fun same => other a (same ▸ rfl)
      obtain ⟨dir, there, _⟩ := Option.bind_eq_some_iff.mp lease
      simp only [World.step, World.act, is']
      exact (inv.downloads_elsewhere is' able there fun here => inv.pair p q _ _ ne is' is X here at_).2
  | @collector p c a is' able =>
      have ne : q ≠ p := fun same => other a (same ▸ rfl)
      obtain ⟨_, data, dir⟩ := inv.leased_untouched (a := a) is' lease locked ne
      exact ⟨dir e is le, fun _ _ _ => congrFun data _⟩

/-- What every event leaves of a stage that collectors do not take and that no downloader is at. -/
theorem refused_step {e : Event R} (inv : Inv x base w) (permitted : World.Permits x w e) (there : w.disk.dir? X = some d)
    (no : Refuses x w.disk X) (at_ : OnlyStopped x w X) :
    Same X w.disk (w.step x e).disk ∧ OnlyStopped x (w.step x e) X := by
  -- Where the stage stays the same, it is enough to look at the process that has gone on.
  have others {p : Pid} {next : Option (Proc R)} {disk' : Disk} (same : Same X w.disk disk')
      (mine : ∀ proc, next = some proc → proc.at_ = some X →
        ∃ left bytes o, proc = .collector (.one X left bytes o) ∧ Stopped x disk' X o) :
      OnlyStopped x (w.setProc p next disk') X := by
    intro q proc is here
    change (if q = p then next else w.procs q) = _ at is
    split at is
    · exact mine proc is here
    · obtain ⟨left, bytes, o, is, stops⟩ := at_ q proc is here
      exact ⟨left, bytes, o, is, same.stopped stops⟩
  have still : Same X w.disk w.disk := ⟨rfl, fun _ _ _ => rfl⟩
  cases permitted with
  | download | collect =>
      refine ⟨still, others still ?_⟩
      rintro _ ⟨⟩
      rintro ⟨⟩
  | @kill p =>
      have same : Same X w.disk (w.disk.forget p) := ⟨rfl, fun _ _ _ => rfl⟩
      exact ⟨same, others same (by simp)⟩
  | @downloader p d' a is able =>
      obtain ⟨ne, same⟩ := inv.downloads_elsewhere is able there fun here => by
        obtain ⟨_, _, _, is', _⟩ := at_ p _ is here
        cases is'
      simp only [World.step, World.act, is]
      refine ⟨same, others same fun proc next here => ?_⟩
      obtain ⟨d'', goes, rfl⟩ := Option.map_eq_some_iff.mp next
      rw [show Proc.at_ (.downloader d'') = d''.at_ from rfl, Downloader.stays able goes] at here
      exact absurd here ne
  | @collector p c a is able =>
      simp only [World.step, World.act, is]
      cases c with
      | root | done =>
          refine ⟨still, others still ?_⟩
          rintro _ ⟨⟩
          rintro ⟨⟩
      | next left bytes =>
          cases left with
          | nil =>
              refine ⟨still, others still ?_⟩
              rintro _ ⟨⟩
              rintro ⟨⟩
          | cons entry left =>
              obtain ⟨Y, isDir⟩ := entry
              simp only [Collector.step]
              split
              · refine ⟨still, others still ?_⟩
                rintro _ ⟨⟩
                rintro ⟨⟩
              · refine ⟨still, others still ?_⟩
                rintro _ ⟨⟩ here
                cases here
                exact ⟨_, _, _, rfl, trivial⟩
      | one Y left bytes o =>
          by_cases here : Y = X
          · subst here
            obtain ⟨_, _, _, is', stops⟩ := at_ p _ is rfl
            cases is'
            obtain ⟨same, goes⟩ := Stopped.step p a.names no stops (by
              rintro rfl
              cases able with
              | list all => exact all
              | one other => exact absurd rfl other)
            simp only [Collector.step]
            generalize o.step x p Y a.names w.disk = result at same goes
            obtain ⟨outcome, disk'⟩ := result
            dsimp only at same
            subst same
            cases outcome with
            | goes o' =>
                refine ⟨still, others still ?_⟩
                rintro _ ⟨⟩ _
                exact ⟨_, _, _, rfl, goes o' rfl⟩
            | failed | reclaimed =>
                refine ⟨still, others still ?_⟩
                rintro _ ⟨⟩
                rintro ⟨⟩
          · have same : Same X w.disk (o.step x p Y a.names w.disk).2 := collects_elsewhere here
            simp only [Collector.step]
            generalize o.step x p Y a.names w.disk = result at same
            obtain ⟨outcome, disk'⟩ := result
            cases outcome with
            | goes o' =>
                refine ⟨same, others same ?_⟩
                rintro _ ⟨⟩ at_'
                exact absurd (Option.some.inj at_') here
            | failed | reclaimed =>
                refine ⟨same, others same ?_⟩
                rintro _ ⟨⟩
                rintro ⟨⟩

/-- A stage that collectors do not take and that nobody else is at stays as it is, whatever runs. -/
theorem refused_untouched (inv : Inv x base w) (there : w.disk.dir? X = some d) (no : Refuses x w.disk X)
    (at_ : OnlyStopped x w X) (run : FreshRun x w w') : Same X w.disk w'.disk := by
  have kept : Inv x base w' ∧ Same X w.disk w'.disk ∧ OnlyStopped x w' X := by
    refine Runs.invariant (I := fun v => Inv x base v ∧ Same X w.disk v.disk ∧ OnlyStopped x v X) ?_ run
      ⟨inv, ⟨rfl, fun _ _ _ => rfl⟩, at_⟩
    intro v e permitted ⟨inv, same, at_⟩
    obtain ⟨next, at_'⟩ := inv.refused_step permitted.1 (same.dir.trans there) (same.refuses no) at_
    exact ⟨inv.step permitted, same.trans next, at_'⟩
  exact kept.2.1

end Inv

end Khor.Update
