/-
Module: Khor.Update.Abandoned
Purpose: A stage whose record was completely written, in every run in which nobody is killed while taking it
  down between its record and its directory: it is gone, or somebody is at it, or a collector takes it.
Trusted boundary: none
Main exports: Proc.takesDown, Gone, Standing, Standing.run, Standing.sound
-/
import Khor.Update.Untouched

namespace Khor.Update

variable {R : Type} {x : Externals R} {base k : Nat} {w w' : World R} {disk disk' : Disk} {X Y name : String} {p q : Pid}
  {d : Dir}

/-- A process that is removing a stage and has begun with its record or can have: a downloader in the drop, or a collector
after the record. -/
def Proc.takesDown : Proc R → Bool
  | .downloader (.clear _ _) | .downloader (.rmdir _) => true
  | .collector (.one _ _ _ o) => o.last
  | _ => false

/-- Nobody is killed who is taking the stage down while it lacks its record or its lease. -/
def World.Spares (X : String) (w : World R) (e : Event R) : Prop :=
  ∀ p proc, e = .kill p → w.procs p = some proc → proc.at_ = some X → proc.takesDown = true → ∀ d, w.disk.dir? X = some d →
    (w.disk.file? X "owner.json").isSome = true ∧ (w.disk.file? X "lease").isSome = true

/-- The directory that had this number is not there any more. -/
def Gone (k : Nat) (disk : Disk) (X : String) : Prop := ∀ d, disk.dir? X = some d → d.node ≠ k

/-- A downloader whose record has been written. -/
def Downloader.past : Downloader R → Bool
  | write _ _ _ [] | staged _ _ | close _ _ | list _ | clear _ _ | rmdir _ => true
  | _ => false

/-- Somebody is taking the stage down. -/
def Taken (w : World R) (X : String) : Prop :=
  ∃ q proc, w.procs q = some proc ∧ proc.at_ = some X ∧ proc.takesDown = true

/-- Somebody is taking the stage down who can have removed its lease. -/
def Proc.unleases : Proc R → Bool
  | .downloader (.clear _ _) | .downloader (.rmdir _) | .collector (.one _ _ _ (.rmdir _)) => true
  | _ => false

def Unleased (w : World R) (X : String) : Prop :=
  ∃ q proc, w.procs q = some proc ∧ proc.at_ = some X ∧ proc.unleases = true

/-- The record says what it has to. -/
def Recorded (x : Externals R) (disk : Disk) (X : String) : Prop :=
  ∃ record release, disk.file? X "owner.json" = some ⟨record, true⟩ ∧ x.restore release = true ∧
    (x.toVec ⟨1, X, release⟩).length ≤ RECORD_LIMIT ∧ disk.data record = x.toVec ⟨1, X, release⟩

/-- The stage stands: what it lacks somebody is about to remove it for. -/
structure Standing (x : Externals R) (base k : Nat) (X : String) (w : World R) (d : Dir) : Prop where
  there : w.disk.dir? X = some d
  node : d.node = k
  isPrivate : d.isPrivate = true
  known : ∀ name file, w.disk.file? X name = some file → name ∈ FILES ∧ file.regular = true ∧ base ≤ file.node
  owner : Recorded x w.disk X ∨ w.disk.file? X "owner.json" = none ∧ Taken w X
  lease : (w.disk.file? X "lease").isSome = true ∨ w.disk.file? X "lease" = none ∧ Unleased w X
  past : ∀ q d, w.procs q = some (.downloader d) → d.at_ = some X → d.past = true

theorem Proc.takesDown_of_unleases {proc : Proc R} (h : proc.unleases = true) : proc.takesDown = true := by
  cases proc with
  | downloader d => cases d <;> exact h
  | collector c =>
      cases c with
      | one X left bytes o => cases o <;> first | rfl | cases h
      | root | next | done => cases h

/-- What happens elsewhere leaves the stage standing, and those who are taking it down at it. -/
theorem Standing.elsewhere (h : Standing x base k X w d) {next : Option (Proc R)} (same : Same X w.disk disk')
    (before : ∀ proc, w.procs p = some proc → proc.at_ ≠ some X)
    (after : ∀ d, next = some (.downloader d) → d.at_ ≠ some X) :
    Standing x base k X (w.setProc p next disk') d := by
  have stay {q : Pid} {proc : Proc R} (is : w.procs q = some proc) (at_ : proc.at_ = some X) :
      (w.setProc p next disk').procs q = some proc := by
    refine (if_neg ?_).trans is
    rintro rfl
    exact before proc is at_
  refine ⟨same.dir.trans h.there, h.node, h.isPrivate, fun name file found => ?_, ?_, ?_, fun q d' is at_ => ?_⟩
  · exact h.known name file (same.file?.symm.trans found)
  · refine h.owner.imp ?_ ?_
    · rintro ⟨record, release, found, authentic, fits, written⟩
      exact ⟨record, release, same.file?.trans found, authentic, fits, (same.data _ _ found).trans written⟩
    · rintro ⟨none_, q, proc, is, at_, takes⟩
      exact ⟨same.file?.trans none_, q, proc, stay is at_, at_, takes⟩
  · refine h.lease.imp ?_ ?_
    · intro found
      change (disk'.file? X "lease").isSome = true
      rw [same.file?]
      exact found
    · rintro ⟨none_, q, proc, is, at_, takes⟩
      exact ⟨same.file?.trans none_, q, proc, stay is at_, at_, takes⟩
  · change (if q = p then next else w.procs q) = _ at is
    split at is
    · exact absurd at_ (after d' is)
    · exact h.past q d' is at_

section Here

variable {next : Option (Proc R)}

/-- Whoever was taking the stage down still is, where the process that has gone on is if it was. -/
theorem Taken.stays (h : Taken w X) (mine : ∀ proc, w.procs p = some proc → proc.at_ = some X → proc.takesDown = true →
    ∃ proc', next = some proc' ∧ proc'.at_ = some X ∧ proc'.takesDown = true) : Taken (w.setProc p next disk') X := by
  obtain ⟨q, proc, is, at_, takes⟩ := h
  by_cases same : q = p
  · subst same
    obtain ⟨proc', is', at_', takes'⟩ := mine proc is at_ takes
    exact ⟨q, proc', (if_pos rfl).trans is', at_', takes'⟩
  · exact ⟨q, proc, (if_neg same).trans is, at_, takes⟩

theorem Unleased.stays (h : Unleased w X) (mine : ∀ proc, w.procs p = some proc → proc.at_ = some X →
    proc.unleases = true → ∃ proc', next = some proc' ∧ proc'.at_ = some X ∧ proc'.unleases = true) :
    Unleased (w.setProc p next disk') X := by
  obtain ⟨q, proc, is, at_, takes⟩ := h
  by_cases same : q = p
  · subst same
    obtain ⟨proc', is', at_', takes'⟩ := mine proc is at_ takes
    exact ⟨q, proc', (if_pos rfl).trans is', at_', takes'⟩
  · exact ⟨q, proc, (if_neg same).trans is, at_, takes⟩

theorem Standing.past_stays (h : Standing x base k X w d)
    (mine : ∀ d, next = some (.downloader d) → d.at_ = some X → d.past = true) (q : Pid) (other : Downloader R)
    (is : (w.setProc p next disk').procs q = some (.downloader other)) (at_ : other.at_ = some X) : other.past = true := by
  change (if q = p then next else w.procs q) = _ at is
  split at is
  · exact mine other is at_
  · exact h.past q other is at_

theorem Recorded.congr (h : Recorded x disk X) (same : disk'.file? X "owner.json" = disk.file? X "owner.json")
    (data : ∀ file, disk.file? X "owner.json" = some file → disk'.data file.node = disk.data file.node) :
    Recorded x disk' X := by
  obtain ⟨record, release, found, authentic, fits, written⟩ := h
  exact ⟨record, release, same.trans found, authentic, fits, (data _ found).trans written⟩

/-- A file other than the lease and the record comes, goes or is written, and nobody stops taking the stage down. -/
theorem Standing.assets (h : Standing x base k X w d) {d' : Dir} (there : disk'.dir? X = some d')
    (node : d'.node = d.node) (isPrivate : d'.isPrivate = d.isPrivate)
    (known : ∀ name file, disk'.file? X name = some file → name ∈ FILES ∧ file.regular = true ∧ base ≤ file.node)
    (same : ∀ name, name ∉ Downloader.assets → disk'.file? X name = w.disk.file? X name)
    (data : ∀ file, w.disk.file? X "owner.json" = some file → disk'.data file.node = w.disk.data file.node)
    (taken : Taken w X → w.disk.file? X "owner.json" = none → Taken (w.setProc p next disk') X)
    (unleased : Unleased w X → w.disk.file? X "lease" = none → Unleased (w.setProc p next disk') X)
    (past : ∀ d, next = some (.downloader d) → d.at_ = some X → d.past = true) :
    Standing x base k X (w.setProc p next disk') d' := by
  refine ⟨there, node.trans h.node, isPrivate.trans h.isPrivate, known, ?_, ?_, h.past_stays past⟩
  · exact h.owner.imp (fun recorded => recorded.congr (same _ (by decide)) data) fun ⟨none_, takes⟩ =>
      ⟨(same _ (by decide)).trans none_, taken takes none_⟩
  · refine h.lease.imp (fun found => ?_) fun ⟨none_, takes⟩ => ⟨(same _ (by decide)).trans none_, unleased takes none_⟩
    change (disk'.file? X "lease").isSome = true
    rw [same _ (by decide)]
    exact found

/-- Nothing happens to the directory, and nobody stops taking it down. -/
theorem Standing.still (h : Standing x base k X w d) (dir : disk'.dir? X = w.disk.dir? X)
    (data : ∀ name file, w.disk.file? X name = some file → disk'.data file.node = w.disk.data file.node)
    (taken : Taken w X → w.disk.file? X "owner.json" = none → Taken (w.setProc p next disk') X)
    (unleased : Unleased w X → w.disk.file? X "lease" = none → Unleased (w.setProc p next disk') X)
    (past : ∀ d, next = some (.downloader d) → d.at_ = some X → d.past = true) :
    Standing x base k X (w.setProc p next disk') d :=
  h.assets (dir.trans h.there) rfl rfl (fun name file found => h.known name file ((Disk.file?_congr dir).symm.trans found))
    (fun _ _ => Disk.file?_congr dir) (data "owner.json") taken unleased past

/-- A file is removed by somebody who is taking the stage down for good. -/
theorem Standing.removes (h : Standing x base k X w d) (name : String) {proc : Proc R} (next_ : next = some proc)
    (at_ : proc.at_ = some X) (unleases : proc.unleases = true)
    (past : ∀ d, next = some (.downloader d) → d.at_ = some X → d.past = true) :
    ∃ d', Standing x base k X (w.setProc p next (w.disk.unlink X name)) d' := by
  have me : Taken (w.setProc p next (w.disk.unlink X name)) X :=
    ⟨p, proc, (if_pos rfl).trans next_, at_, Proc.takesDown_of_unleases unleases⟩
  have me' : Unleased (w.setProc p next (w.disk.unlink X name)) X := ⟨p, proc, (if_pos rfl).trans next_, at_, unleases⟩
  refine ⟨_, Disk.dir?_unlink h.there, h.node, h.isPrivate, fun other file found => ?_, ?_, ?_, h.past_stays past⟩
  · change (w.disk.unlink X name).file? X other = _ at found
    rw [Disk.file?_unlink] at found
    split at found
    · cases found
    · exact h.known other file found
  · by_cases same : "owner.json" = name
    · exact .inr ⟨Disk.file?_unlink.trans (if_pos same), me⟩
    · have kept : (w.disk.unlink X name).file? X "owner.json" = w.disk.file? X "owner.json" :=
        Disk.file?_unlink.trans (if_neg same)
      refine h.owner.imp (fun recorded => recorded.congr kept fun _ _ => ?_) fun ⟨none_, _⟩ => ⟨kept.trans none_, me⟩
      change (w.disk.unlink X name).data _ = _
      rw [Disk.data_unlink]
  · by_cases same : "lease" = name
    · exact .inr ⟨Disk.file?_unlink.trans (if_pos same), me'⟩
    · have kept : (w.disk.unlink X name).file? X "lease" = w.disk.file? X "lease" :=
        Disk.file?_unlink.trans (if_neg same)
      refine h.lease.imp (fun found => ?_) fun ⟨none_, _⟩ => ⟨kept.trans none_, me'⟩
      change ((w.disk.unlink X name).file? X "lease").isSome = true
      rw [kept]
      exact found

end Here

theorem Gone.rmdir : Gone k (disk.rmdir X) X := fun d there => by
  rw [Disk.dir?_rmdir] at there
  cases there

theorem keys_eq_nil (there : disk.dir? X = some d) (none_ : ∀ name, disk.file? X name = none) : d.files.keys = [] := by
  refine List.eq_nil_iff_forall_not_mem.mpr fun name mem => ?_
  have found := AList.lookup_isSome.mpr (AList.mem_keys.mpr mem)
  rw [← Disk.file?_of_dir? there, none_ name] at found
  cases found

/-- What the downloader of a stage does leaves it standing, or it is gone. -/
theorem Standing.downloads (inv : Inv x base w) (h : Standing x base k X w d) {e : Downloader R} {a : Act}
    (is : w.procs p = some (.downloader e)) (able : e.Able w.disk a) (at_ : e.at_ = some X) :
    Gone k (e.step x p w.disk a).2 X ∨
      ∃ d', Standing x base k X (w.setProc p ((e.step x p w.disk a).1.map .downloader) (e.step x p w.disk a).2) d' := by
  have known : e.Local x base p w.disk := inv.known p _ is
  have past := h.past p e is at_
  have outT {next : Option (Proc R)} {disk' : Disk} (not_ : (Proc.downloader e).takesDown = false) (taken : Taken w X) :
      Taken (w.setProc p next disk') X := taken.stays fun proc there _ takes => by
    rw [is] at there
    cases there
    rw [not_] at takes
    cases takes
  have outU {next : Option (Proc R)} {disk' : Disk} (not_ : (Proc.downloader e).takesDown = false)
      (unleased : Unleased w X) : Unleased (w.setProc p next disk') X := unleased.stays fun proc there _ takes => by
    rw [is] at there
    cases there
    rw [Proc.takesDown_of_unleases takes] at not_
    cases not_
  cases able with
  | tempdir => cases at_
  | permissions | openLease | lockLease | openRecord | permissionsFails | openLeaseFails | lockLeaseFails
  | openRecordFails => cases past
  | @write _ _ _ left _ some_ le =>
      cases left with
      | nil => exact absurd (Nat.lt_of_lt_of_le some_ le) (Nat.lt_irrefl _)
      | cons => cases past
  | written =>
      refine .inr ⟨d, h.still rfl (fun _ _ _ => rfl) (fun takes _ => outT rfl takes) (fun takes _ => outU rfl takes) ?_⟩
      rintro _ ⟨⟩ _
      rfl
  | @writeFails _ _ _ left =>
      refine .inr ⟨d, h.still rfl (fun _ _ _ => rfl) (fun takes _ => outT ?_ takes) (fun takes _ => outU ?_ takes) ?_⟩
      · rfl
      · rfl
      · rintro _ ⟨⟩ _
        rfl
  | finished | close =>
      refine .inr ⟨d, h.still rfl (fun _ _ _ => rfl) (fun takes _ => outT rfl takes) (fun takes _ => outU rfl takes) ?_⟩
      rintro _ ⟨⟩ _
      rfl
  | list =>
      cases at_
      simp only [Downloader.step, h.there]
      refine .inr ⟨d, h.still rfl (fun _ _ _ => rfl) (fun takes _ => outT rfl takes) (fun takes _ => outU rfl takes) ?_⟩
      rintro _ ⟨⟩ _
      rfl
  | @create Y node name asset free =>
      cases at_
      simp only [Downloader.step]
      refine .inr ⟨_, h.assets (Disk.dir?_create h.there) rfl rfl (fun other file found => ?_) (fun other not_ => ?_)
        (fun file found => ?_) (fun takes _ => outT rfl takes) (fun takes _ => outU rfl takes) ?_⟩
      · rw [Disk.file?_create h.there] at found
        split at found
        · rename_i same
          cases found
          subst same
          exact ⟨(by decide : ∀ name ∈ Downloader.assets, name ∈ FILES) other asset, rfl, inv.base_le⟩
        · exact h.known other file found
      · rw [Disk.file?_create h.there]
        refine if_neg ?_
        rintro rfl
        exact not_ asset
      · rw [Disk.data_create h.there]
        exact if_neg (Nat.ne_of_lt (inv.old _ _ _ found))
      · rintro _ ⟨⟩ _
        rfl
  | @append Y node name piece asset there =>
      cases at_
      obtain ⟨file, found⟩ := Option.isSome_iff_exists.mp there
      simp only [Downloader.step, found]
      refine .inr ⟨_, h.assets h.there rfl rfl h.known (fun _ _ => rfl) (fun other there' => ?_) (fun takes _ => outT rfl takes) (fun takes _ => outU rfl takes) ?_⟩
      · refine if_neg fun same => ?_
        obtain low | ⟨_, same⟩ := inv.apart _ _ _ _ _ _ there' found same
        · have := (h.known _ _ there').2.2
          omega
        · subst same
          exact absurd asset (by decide)
      · rintro _ ⟨⟩ _
        rfl
  | moveAway =>
      cases at_
      simp only [Downloader.step]
      refine .inr ⟨_, h.assets (Disk.dir?_unlink h.there) rfl rfl (fun other file found => ?_) (fun other not_ => ?_)
        (fun file found => ?_) (fun takes _ => outT rfl takes) (fun takes _ => outU rfl takes) ?_⟩
      · rw [Disk.file?_unlink] at found
        split at found
        · cases found
        · exact h.known other file found
      · rw [Disk.file?_unlink]
        refine if_neg ?_
        rintro rfl
        exact not_ (by decide)
      · rw [Disk.data_unlink]
      · rintro _ ⟨⟩ _
        rfl
  | @clear Y names =>
      cases at_
      cases names with
      | nil =>
          refine .inr ⟨d, h.still rfl (fun _ _ _ => rfl)
            (fun _ _ => ⟨p, _, if_pos rfl, rfl, rfl⟩) (fun _ _ => ⟨p, _, if_pos rfl, rfl, rfl⟩) ?_⟩
          rintro _ ⟨⟩ _
          rfl
      | cons name names =>
          refine .inr (h.removes name rfl rfl rfl ?_)
          rintro _ ⟨⟩ _
          rfl
  | rmdir =>
      cases at_
      simp only [Downloader.step, h.there, keys_eq_nil h.there known, if_true]
      exact .inl Gone.rmdir

/-- What a collector does in a stage leaves it standing, or it is gone. -/
theorem Standing.collects (inv : Inv x base w) (h : Standing x base k X w d) {o : One} {left : List (String × Bool)}
    {bytes : Nat} (listed : List String) (is : w.procs p = some (.collector (.one X left bytes o))) {c : Collector}
    (goes : ∀ o', (o.step x p X listed w.disk).1 = .goes o' → c = .one X left bytes o') :
    Gone k (o.step x p X listed w.disk).2 X ∨
      ∃ d', Standing x base k X (w.setProc p (some (.collector c)) (o.step x p X listed w.disk).2) d' := by
  have takes : One.Takes p X w.disk (o.entered = true) (o.step x p X listed w.disk).2 := o.takes
  have known : o.Local base p w.disk X := inv.known p _ is
  have outT {disk' : Disk} {next : Option (Proc R)} (not_ : o.last = false) (taken : Taken w X) :
      Taken (w.setProc p next disk') X := taken.stays fun proc there _ takes => by
    rw [is] at there
    cases there
    have takes : o.last = true := takes
    rw [not_] at takes
    cases takes
  have outU {disk' : Disk} {next : Option (Proc R)} (not_ : ∀ n, o ≠ .rmdir n) (unleased : Unleased w X) :
      Unleased (w.setProc p next disk') X := unleased.stays fun proc there _ takes => by
    rw [is] at there
    cases there
    cases o with
    | rmdir n => exact absurd rfl (not_ n)
    | metadata | list | sizes | recordMetadata | recordOpen | recordRead | leaseMetadata | leaseOpen | tryLock | assets
    | record | drop | lease => cases takes
  cases o with
  | metadata | list | sizes | recordMetadata | recordOpen | recordRead | leaseMetadata | leaseOpen | tryLock =>
      exact .inr ⟨d, h.still (Disk.dir?_of_root (takes.reads (by rintro ⟨⟩))) (fun _ _ _ => by rw [takes.data])
        (fun taken _ => outT rfl taken) (fun unleased _ => outU (by simp) unleased) (by simp)⟩
  | assets names node n =>
      cases names with
      | nil =>
          exact .inr ⟨d, h.still rfl (fun _ _ _ => rfl) (fun taken _ => outT rfl taken)
            (fun unleased _ => outU (by simp) unleased) (by simp)⟩
      | cons name names =>
          have asset : name ∈ Downloader.assets := known.2.2.2 name (.head _)
          simp only [One.step]
          refine .inr ⟨_, h.assets (Disk.dir?_unlink h.there) rfl rfl (fun other file found => ?_) (fun other not_ => ?_)
            (fun _ _ => by rw [Disk.data_unlink]) (fun takes _ => outT rfl takes) (fun takes _ => outU (by simp) takes) (by simp)⟩
          · rw [Disk.file?_unlink] at found
            split at found
            · cases found
            · exact h.known other file found
          · rw [Disk.file?_unlink]
            refine if_neg ?_
            rintro rfl
            exact not_ asset
  | record node n =>
      simp only [One.step] at goes ⊢
      split
      · rename_i found
        simp only [found] at goes
        have me : Taken (w.setProc p (some (.collector c)) (w.disk.unlink X "owner.json")) X :=
          ⟨p, _, if_pos rfl, by rw [goes _ rfl]; rfl, by rw [goes _ rfl]; rfl⟩
        have kept : (w.disk.unlink X "owner.json").file? X "lease" = w.disk.file? X "lease" :=
          Disk.file?_unlink.trans (if_neg (by decide))
        refine .inr ⟨_, Disk.dir?_unlink h.there, h.node, h.isPrivate, fun other file there => ?_,
          .inr ⟨Disk.file?_unlink.trans (if_pos rfl), me⟩, h.lease.imp (fun there => ?_) fun both =>
          ⟨kept.trans both.1, outU (by simp) both.2⟩, h.past_stays (by simp)⟩
        · change (w.disk.unlink X "owner.json").file? X other = _ at there
          rw [Disk.file?_unlink] at there
          split at there
          · cases there
          · exact h.known other file there
        · change ((w.disk.unlink X "owner.json").file? X "lease").isSome = true
          rw [kept]
          exact there
      · exact .inr ⟨d, h.still rfl (fun _ _ _ => rfl) (fun taken _ => outT rfl taken)
          (fun unleased _ => outU (by simp) unleased) (by simp)⟩
  | drop node n =>
      refine .inr ⟨d, h.still rfl (fun _ _ _ => rfl) (fun taken _ => ?_) (fun unleased _ => outU (by simp) unleased) (by simp)⟩
      exact ⟨p, _, if_pos rfl, by rw [goes _ rfl]; rfl, by rw [goes _ rfl]; rfl⟩
  | lease n =>
      simp only [One.step] at goes ⊢
      split
      · rename_i found
        simp only [found] at goes
        exact .inr (h.removes "lease" rfl (by rw [goes _ rfl]; rfl) (by rw [goes _ rfl]; rfl) (by simp))
      · rename_i none_
        -- Somebody else has removed the lease, and is taking the stage down still.
        have other : Unleased (w.setProc p (some (.collector c)) w.disk) X :=
          h.lease.elim (fun found => by rw [none_] at found; cases found) fun both => outU (by simp) both.2
        have taken : Taken (w.setProc p (some (.collector c)) w.disk) X := by
          obtain ⟨q, proc, is', at_, unleases⟩ := other
          exact ⟨q, proc, is', at_, Proc.takesDown_of_unleases unleases⟩
        exact .inr ⟨d, h.still rfl (fun _ _ _ => rfl) (fun _ _ => taken) (fun _ _ => other) (by simp)⟩
  | rmdir n =>
      have empty : d.files.keys = [] := keys_eq_nil h.there fun name =>
        Option.eq_none_iff_forall_ne_some.mpr fun file found =>
          absurd (known name (h.known name file found).1 (found ▸ rfl)) List.not_mem_nil
      simp only [One.step, h.there, empty, if_true]
      exact .inl Gone.rmdir

/-- The result of a collector's step in a stage. -/
theorem Collector.step_one {o : One} {left : List (String × Bool)} {bytes : Nat} (listed : List String) :
    ((Collector.one X left bytes o).step x p listed disk).2 = (o.step x p X listed disk).2 ∧
      ∀ o', (o.step x p X listed disk).1 = .goes o' →
        ((Collector.one X left bytes o).step x p listed disk).1 = .one X left bytes o' := by
  simp only [Collector.step]
  generalize o.step x p X listed disk = result
  obtain ⟨outcome, disk'⟩ := result
  cases outcome with
  | goes o' =>
      refine ⟨rfl, ?_⟩
      rintro _ ⟨⟩
      rfl
  | failed | reclaimed => exact ⟨rfl, by simp⟩

/-- Every event that spares the stage leaves it standing, or it is gone. -/
theorem Standing.step (inv : Inv x base w) {e : Event R} (permitted : World.Permits x w e) (spares : w.Spares X e)
    (h : Standing x base k X w d) : Gone k (w.step x e).disk X ∨ ∃ d', Standing x base k X (w.step x e) d' := by
  have still : Same X w.disk w.disk := ⟨rfl, fun _ _ _ => rfl⟩
  cases permitted with
  | @download p release free =>
      refine .inr ⟨d, h.elsewhere still (fun proc is => ?_) ?_⟩
      · rw [free] at is
        cases is
      · rintro _ ⟨⟩
        rintro ⟨⟩
  | @collect p free =>
      refine .inr ⟨d, h.elsewhere still (fun proc is => ?_) (by simp)⟩
      rw [free] at is
      cases is
  | @kill p =>
      simp only [World.step]
      by_cases taking : ∃ proc, w.procs p = some proc ∧ proc.at_ = some X ∧ proc.takesDown = true
      · obtain ⟨proc, is, at_, takes⟩ := taking
        obtain ⟨owner, lease⟩ := spares p proc rfl is at_ takes d h.there
        refine .inr ⟨d, h.still rfl (fun _ _ _ => rfl) (fun _ none_ => ?_) (fun _ none_ => ?_) (by simp)⟩
        · rw [none_] at owner
          cases owner
        · rw [none_] at lease
          cases lease
      · refine .inr ⟨d, h.still rfl (fun _ _ _ => rfl) (fun taken _ => taken.stays fun proc is at_ takes => ?_)
          (fun unleased _ => unleased.stays fun proc is at_ takes => ?_) (by simp)⟩
        · exact absurd ⟨proc, is, at_, takes⟩ taking
        · exact absurd ⟨proc, is, at_, Proc.takesDown_of_unleases takes⟩ taking
  | @downloader p e a is able =>
      obtain ⟨Y, place⟩ := Inv.place_some able
      have known : e.Local x base p w.disk := inv.known p _ is
      simp only [World.step, World.act, is]
      by_cases here : X = Y
      · subst here
        obtain at_ | ⟨b, draw⟩ := Inv.at_of_place able place
        · exact h.downloads inv is able at_
        · subst draw
          cases able with
          | tempdir named free =>
              have there := h.there
              rw [Disk.dir?_of_notMem free] at there
              cases there
      · have op : Op p Y w.disk (e.step x p w.disk a).2 := Downloader.op able known place
        have same : Same X w.disk (e.step x p w.disk a).2 := by
          refine ⟨op.dir? here, fun name file found => ?_⟩
          refine Inv.downloads_data known able (inv.old X name file found) (fun other file' _ mine le clash => ?_) place
          obtain low | ⟨same, _⟩ := inv.apart _ _ _ _ _ _ mine found clash
          · omega
          · exact here same.symm
        refine .inr ⟨d, h.elsewhere same (fun proc there at_ => ?_) fun e' next at_ => ?_⟩
        · rw [is] at there
          cases there
          obtain at_' | ⟨b, draw⟩ := Inv.at_of_place able place
          · exact here (Option.some.inj (at_.symm.trans at_'))
          · subst draw
            cases able
            cases at_
        · obtain ⟨_, goes, ⟨⟩⟩ := Option.map_eq_some_iff.mp next
          rw [Downloader.stays able goes, place] at at_
          exact here (Option.some.inj at_).symm
  | @collector p c a is able =>
      simp only [World.step, World.act, is]
      have idle (nowhere : (Proc.collector c : Proc R).at_ = none) {c' : Collector} :
          ∃ d', Standing x base k X (w.setProc p (some (.collector c')) w.disk) d' := by
        refine ⟨d, h.elsewhere still (fun proc there at_ => ?_) (by simp)⟩
        rw [is] at there
        cases there
        rw [nowhere] at at_
        cases at_
      cases c with
      | root | done => exact .inr (idle rfl)
      | next left bytes =>
          cases left with
          | nil => exact .inr (idle rfl)
          | cons entry left =>
              obtain ⟨Y, isDir⟩ := entry
              simp only [Collector.step]
              split <;> exact .inr (idle rfl)
      | one Y left bytes o =>
          obtain ⟨disk, goes⟩ := @Collector.step_one R x w.disk Y p o left bytes a.names
          rw [disk]
          by_cases here : X = Y
          · subst here
            exact h.collects inv a.names is goes
          · have takes : One.Takes p Y w.disk (o.entered = true) (o.step x p Y a.names w.disk).2 := o.takes
            have same : Same X w.disk (o.step x p Y a.names w.disk).2 :=
              ⟨takes.op.dir? here, fun _ _ _ => by rw [takes.data]⟩
            refine .inr ⟨d, h.elsewhere same (fun proc there at_ => ?_) (by simp)⟩
            rw [is] at there
            cases there
            exact here (Option.some.inj at_).symm

/-- Every event is a call of some process, or takes the locks of one away. -/
theorem Inv.step_op (inv : Inv x base w) {e : Event R} (permitted : World.Permits x w e) :
    (∃ p Y, Op p Y w.disk (w.step x e).disk) ∨ ∃ p, (w.step x e).disk = w.disk.forget p := by
  cases permitted with
  | @download p | @collect p => exact .inl ⟨p, "", .none⟩
  | @kill p => exact .inr ⟨p, rfl⟩
  | @downloader p e a is able =>
      obtain ⟨Y, place⟩ := Inv.place_some able
      simp only [World.step, World.act, is]
      exact .inl ⟨p, Y, Downloader.op able (inv.known p _ is) place⟩
  | @collector p c a is able =>
      simp only [World.step, World.act, is]
      refine .inl ⟨p, ?_⟩
      cases c with
      | root | done => exact ⟨"", .none⟩
      | next left bytes =>
          cases left with
          | nil => exact ⟨"", .none⟩
          | cons entry left =>
              obtain ⟨Y, isDir⟩ := entry
              simp only [Collector.step]
              split <;> exact ⟨"", .none⟩
      | one Y left bytes o =>
          rw [(@Collector.step_one R x w.disk Y p o left bytes a.names).1]
          exact ⟨Y, o.takes.op⟩

/-- A directory that is gone does not come back: a new one has a new number. -/
theorem Gone.op (op : Op p Y disk disk') (lt : k < disk.nodes) (h : Gone k disk X) : Gone k disk' X := by
  by_cases here : X = Y
  · subst here
    cases op with
    | none | append | lock | unlock => exact h
    | mkdir isPrivate free =>
        intro d there
        rw [Disk.dir?_mkdir] at there
        cases there
        exact (Nat.ne_of_lt lt).symm
    | @chmod dir was =>
        intro d there
        rw [Disk.dir?_chmod was] at there
        cases there
        exact h dir was
    | @create dir name was =>
        intro d there
        rw [Disk.dir?_create was] at there
        cases there
        exact h dir was
    | unlink name =>
        intro d there
        cases was : disk.dir? X with
        | none =>
            unfold Disk.unlink at there
            rw [was] at there
            dsimp only at there
            rw [was] at there
            cases there
        | some dir =>
            rw [Disk.dir?_unlink was] at there
            cases there
            exact h dir was
    | rmdir => exact Gone.rmdir
  · intro d there
    exact h d ((op.dir? here).symm.trans there)

/-- A run in which nobody is killed while taking the stage down between its record and its directory. -/
abbrev SparingRun (x : Externals R) (X : String) : World R → World R → Prop :=
  Runs (World.step x) fun w e => (World.Permits x w e ∧ w.Fresh e) ∧ w.Spares X e

/-- Along such a run the stage stands, or it is gone. -/
theorem Standing.run (inv : Inv x base w) (h : Standing x base k X w d) (run : SparingRun x X w w') :
    Inv x base w' ∧ k < w'.disk.nodes ∧ (Gone k w'.disk X ∨ ∃ d', Standing x base k X w' d') := by
  refine Runs.invariant (I := fun v => Inv x base v ∧ k < v.disk.nodes ∧
    (Gone k v.disk X ∨ ∃ d', Standing x base k X v d')) ?_ run
    ⟨inv, h.node ▸ inv.dirOld X d h.there, .inr ⟨d, h⟩⟩
  intro v e permitted ⟨inv, lt, now⟩
  have more : k < (v.step x e).disk.nodes := by
    obtain ⟨p, Y, op⟩ | ⟨p, same⟩ := inv.step_op permitted.1.1
    · exact Nat.lt_of_lt_of_le lt op.nodes
    · rw [same]
      exact lt
  refine ⟨inv.step permitted.1, more, ?_⟩
  obtain gone | ⟨d', standing⟩ := now
  · obtain ⟨p, Y, op⟩ | ⟨p, same⟩ := inv.step_op permitted.1.1
    · exact .inl (gone.op op lt)
    · rw [same]
      exact .inl gone
  · exact standing.step inv permitted.1.1 permitted.2

/-- Where nobody is at the stage, it is sound and its lease is free. -/
theorem Standing.sound (inv : Inv x base w) (h : Standing x base k X w d)
    (nobody : ∀ p proc, w.procs p = some proc → proc.at_ ≠ some X) :
    Sound x base w.disk X ∧ ∀ file, w.disk.file? X "lease" = some file → w.disk.locks file.node = none := by
  have noTaken : ¬ Taken w X := fun ⟨q, proc, is, at_, _⟩ => nobody q proc is at_
  have noUnleased : ¬ Unleased w X := fun ⟨q, proc, is, at_, _⟩ => nobody q proc is at_
  have recorded : Recorded x w.disk X := h.owner.resolve_right fun ⟨_, taken⟩ => noTaken taken
  have leased : (w.disk.file? X "lease").isSome = true := h.lease.resolve_right fun ⟨_, unleased⟩ => noUnleased unleased
  obtain ⟨⟨node, regular⟩, lease⟩ := Option.isSome_iff_exists.mp leased
  have whole : regular = true := (h.known _ _ lease).2.1
  subst whole
  refine ⟨⟨⟨d, h.there, h.isPrivate⟩, recorded, ⟨node, lease⟩, h.known⟩, fun file found => ?_⟩
  have le : base ≤ file.node := (h.known _ _ found).2.2
  cases locked : w.disk.locks file.node with
  | none => rfl
  | some q =>
      exfalso
      obtain ⟨proc, is, handle⟩ := inv.held _ q locked
      cases proc with
      | downloader e => exact nobody q _ is (inv.holder_at found locked is le).1
      | collector c =>
          cases c with
          | root | next | done => cases handle
          | one Y left bytes o =>
              have known : o.Local base q w.disk Y := inv.known q _ is
              have here {node : Nat} (handle : Handle base w.disk Y node) (same : node = file.node) : False := by
                obtain low | same' := handle.only X "lease" file found same.symm
                · omega
                · exact nobody q _ is (congrArg some same'.symm)
              cases o with
              | assets | record | drop => exact here known.1 (Option.some.inj handle)
              | metadata | list | sizes | recordMetadata | recordOpen | recordRead | leaseMetadata | leaseOpen | tryLock
              | lease | rmdir => cases handle

end Khor.Update
