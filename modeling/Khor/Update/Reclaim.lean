/-
Module: Khor.Update.Reclaim
Purpose: Collecting left to itself ends, and takes away every stage whose record was completely written, in
  every run in which nobody is killed while taking it down between its record and its directory; no other
  stage is touched; and where somebody is killed there, the stage is never reclaimed
  (crates/update/src/package_stage.rs).
Trusted boundary: serde_json
Main exports: Alone, collect_downloads_exact
-/
import Khor.Lib.BigEndian
import Khor.Lib.Leads
import Khor.Update.Abandoned

namespace Khor.Update

variable {R : Type} {x : Externals R} {base k : Nat} {w w' : World R} {disk disk' : Disk} {X Y name : String} {p q : Pid}
  {d : Dir}

/-! ### How long a collector takes -/

/-- The phases still to come, and the names still to come in this one. -/
def One.rank : One → Nat × Nat
  | .metadata => (13, 0)
  | .list => (12, 0)
  | .sizes names _ => (11, names.length)
  | .recordMetadata _ => (10, 0)
  | .recordOpen _ => (9, 0)
  | .recordRead _ _ => (8, 0)
  | .leaseMetadata _ => (7, 0)
  | .leaseOpen _ => (6, 0)
  | .tryLock _ _ => (5, 0)
  | .assets names _ _ => (4, names.length)
  | .record _ _ => (3, 0)
  | .drop _ _ => (2, 0)
  | .lease _ => (1, 0)
  | .rmdir _ => (0, 0)

/-- One after the other: the entries still to come twice over, and the phases. -/
def Collector.rank : Collector → Nat × Nat × Nat
  | .root => (0, 0, 0)
  | .next left _ => (2 * left.length + 1, 0, 0)
  | .one _ left _ o => (2 * left.length + 2, o.rank)
  | .done _ => (0, 0, 0)

abbrev Lower : Nat × Nat × Nat → Nat × Nat × Nat → Prop :=
  Prod.Lex (· < ·) (Prod.Lex (· < ·) (· < ·))

theorem lower_wf : WellFounded Lower :=
  (Prod.lex ⟨_, Nat.lt_wfRel.wf⟩ (Prod.lex ⟨_, Nat.lt_wfRel.wf⟩ ⟨_, Nat.lt_wfRel.wf⟩)).wf

theorem One.goes_rank {o o' : One} {listed : List String} (goes : (o.step x p X listed disk).1 = .goes o') :
    Prod.Lex (· < ·) (· < ·) o'.rank o.rank := by
  cases o with
  | metadata =>
      simp only [step] at goes
      split at goes
      · split at goes <;> cases goes
        exact .left _ _ (by decide)
      · cases goes
  | list | recordMetadata | recordOpen | recordRead | leaseMetadata | leaseOpen | tryLock | record | lease =>
      simp only [step] at goes
      split at goes <;> cases goes
      exact .left _ _ (by decide)
  | sizes names bytes =>
      cases names with
      | nil =>
          cases goes
          exact .left _ _ (by decide)
      | cons name names =>
          simp only [step] at goes
          split at goes
          · cases goes
          · split at goes <;> cases goes
            exact .right _ (Nat.lt_succ_self _)
  | assets names node bytes =>
      cases names with
      | nil =>
          cases goes
          exact .left _ _ (by decide)
      | cons name names =>
          cases goes
          exact .right _ (Nat.lt_succ_self _)
  | drop =>
      cases goes
      exact .left _ _ (by decide)
  | rmdir =>
      simp only [step] at goes
      split at goes
      · split at goes <;> cases goes
      · cases goes

/-! ### A collector in a stage that it takes -/

/-- The stage is sound, it is the directory with this number, and nobody else has its lease. -/
structure Ready (x : Externals R) (base k : Nat) (X : String) (p : Pid) (disk : Disk) : Prop where
  sound : Sound x base disk X
  node : ∃ d, disk.dir? X = some d ∧ d.node = k
  free : ∀ file, disk.file? X "lease" = some file → ∀ q, q ≠ p → disk.locks file.node ≠ some q

/-- What is left of the stage is known. -/
structure Going (k : Nat) (X : String) (disk : Disk) (names : List String) : Prop where
  node : ∃ d, disk.dir? X = some d ∧ d.node = k
  known : ∀ name file, disk.file? X name = some file → name ∈ FILES
  left : Left disk X names

/-- What a collector that takes the stage knows in each phase. -/
def Promising (x : Externals R) (base k : Nat) (X : String) (p : Pid) (disk : Disk) : One → Prop
  | .metadata | .list | .recordMetadata _ | .recordOpen _ | .leaseMetadata _ | .leaseOpen _ => Ready x base k X p disk
  | .sizes names _ => Ready x base k X p disk ∧ ∀ name ∈ names, (disk.file? X name).isSome = true
  | .recordRead node _ => Ready x base k X p disk ∧ ∃ file, disk.file? X "owner.json" = some file ∧ file.node = node
  | .tryLock node _ => Ready x base k X p disk ∧ ∃ file, disk.file? X "lease" = some file ∧ file.node = node
  | .assets names _ _ => Ready x base k X p disk ∧ (∀ name ∈ names, name ∈ Downloader.assets) ∧
      Left disk X ("owner.json" :: "lease" :: names)
  | .record _ _ => Ready x base k X p disk ∧ Left disk X ["owner.json", "lease"]
  | .drop _ _ | .lease _ => Going k X disk ["lease"] ∧ (disk.file? X "lease").isSome = true
  | .rmdir _ => Going k X disk []

theorem accepts_recorded (roundTrip : ∀ owner, x.fromSlice (x.toVec owner) = some owner) {release : R}
    (authentic : x.restore release = true) (fits : (x.toVec ⟨1, X, release⟩).length ≤ RECORD_LIMIT) :
    One.accepts x X (x.toVec ⟨1, X, release⟩) = true := by
  have whole : (x.toVec ⟨1, X, release⟩).take (RECORD_LIMIT + 1) = x.toVec ⟨1, X, release⟩ :=
    List.take_of_length_le (Nat.le_succ_of_le fits)
  unfold One.accepts
  simp only [whole, if_neg (Nat.not_lt.mpr fits), roundTrip, authentic]
  simp

variable {names : List String}

theorem Ready.going (h : Ready x base k X p disk) (left : Left disk X names) : Going k X disk names :=
  ⟨h.node, fun name file found => (h.sound.known name file found).1, left⟩

theorem Going.unlink (h : Going k X disk (name :: names)) : Going k X (disk.unlink X name) names := by
  obtain ⟨d, there, node⟩ := h.node
  refine ⟨⟨_, Disk.dir?_unlink there, node⟩, fun other file found => ?_, One.Left.unlink h.left⟩
  rw [Disk.file?_unlink] at found
  split at found
  · cases found
  · exact h.known other file found

/-- Taking away a file that is neither the record nor the lease leaves the stage one that is taken. -/
theorem Ready.unlink (h : Ready x base k X p disk) (asset : name ∈ Downloader.assets) :
    Ready x base k X p (disk.unlink X name) := by
  obtain ⟨d, there, node⟩ := h.node
  have kept {other : String} (not_ : other ∉ Downloader.assets) :
      (disk.unlink X name).file? X other = disk.file? X other := by
    rw [Disk.file?_unlink]
    refine if_neg ?_
    rintro rfl
    exact not_ asset
  obtain ⟨d', there', mine⟩ := h.sound.isPrivate
  obtain ⟨record, release, owner, authentic, fits, written⟩ := h.sound.owner
  obtain ⟨lease, leased⟩ := h.sound.lease
  refine ⟨⟨⟨_, Disk.dir?_unlink there', mine⟩, ⟨record, release, (kept (by decide)).trans owner, authentic, fits, ?_⟩,
    ⟨lease, (kept (by decide)).trans leased⟩, fun other file found => ?_⟩, ⟨_, Disk.dir?_unlink there, node⟩,
    fun file found q ne => ?_⟩
  · rw [Disk.data_unlink]
    exact written
  · rw [Disk.file?_unlink] at found
    split at found
    · cases found
    · exact h.sound.known other file found
  · rw [kept (by decide)] at found
    rw [Disk.locks_unlink]
    exact h.free file found q ne

theorem Sound.regular (h : Sound x base disk X) {file : File} (found : disk.file? X name = some file) :
    One.regularFile X disk name = some file := by
  unfold One.regularFile
  simp only [found, (h.known name file found).2.1, if_true]

/-- A collector that takes the stage goes on to the end, where the stage is gone. -/
theorem Promising.step (roundTrip : ∀ owner, x.fromSlice (x.toVec owner) = some owner) {o : One} {listed : List String}
    (h : Promising x base k X p disk o) (held : ∀ node, disk.locks node = some p → o.handle = some node)
    (able : o = .list → ∀ d, disk.dir? X = some d → listed.Perm d.files.keys) :
    (∃ o', (o.step x p X listed disk).1 = .goes o' ∧ Promising x base k X p (o.step x p X listed disk).2 o') ∨
      ∃ n, (o.step x p X listed disk).1 = .reclaimed n ∧ Gone k (o.step x p X listed disk).2 X := by
  cases o with
  | metadata =>
      obtain ⟨d, there, mine⟩ := h.sound.isPrivate
      simp only [One.step, there, mine, if_true]
      exact .inl ⟨_, rfl, h⟩
  | list =>
      obtain ⟨d, there, node⟩ := h.node
      simp only [One.step, there]
      refine .inl ⟨_, rfl, h, fun name mem => ?_⟩
      rw [Disk.file?_of_dir? there]
      exact AList.lookup_isSome.mpr (AList.mem_keys.mpr ((able rfl d there).mem_iff.mp mem))
  | sizes names bytes =>
      obtain ⟨ready, there⟩ := h
      cases names with
      | nil => exact .inl ⟨_, rfl, ready⟩
      | cons name names =>
          obtain ⟨file, found⟩ := Option.isSome_iff_exists.mp (there name (.head _))
          have known : name ∈ FILES := (ready.sound.known name file found).1
          simp only [One.step, known, not_true, if_false, ready.sound.regular found]
          exact .inl ⟨_, rfl, ready, fun other mem => there other (.tail _ mem)⟩
  | recordMetadata bytes =>
      obtain ⟨record, release, owner, _⟩ := h.sound.owner
      simp only [One.step, h.sound.regular owner]
      exact .inl ⟨_, rfl, h⟩
  | recordOpen bytes =>
      obtain ⟨record, release, owner, _⟩ := h.sound.owner
      simp only [One.step, owner]
      exact .inl ⟨_, rfl, h, _, owner, rfl⟩
  | recordRead node bytes =>
      obtain ⟨ready, file, found, rfl⟩ := h
      obtain ⟨record, release, owner, authentic, fits, written⟩ := ready.sound.owner
      rw [owner] at found
      cases found
      simp only [One.step, written, accepts_recorded roundTrip authentic fits, if_true]
      exact .inl ⟨_, rfl, ready⟩
  | leaseMetadata bytes =>
      obtain ⟨lease, found⟩ := h.sound.lease
      simp only [One.step, h.sound.regular found]
      exact .inl ⟨_, rfl, h⟩
  | leaseOpen bytes =>
      obtain ⟨lease, found⟩ := h.sound.lease
      simp only [One.step, found]
      exact .inl ⟨_, rfl, h, _, found, rfl⟩
  | tryLock node bytes =>
      obtain ⟨ready, file, found, rfl⟩ := h
      have free : disk.locks file.node = none := by
        cases locked : disk.locks file.node with
        | none => rfl
        | some q =>
            by_cases same : q = p
            · subst same
              cases held _ locked
            · exact absurd locked (ready.free file found q same)
      simp only [One.step, free]
      refine .inl ⟨_, rfl, ⟨ready.sound.congr rfl fun _ _ _ => rfl, ready.node, fun other found' q ne => ?_⟩, by decide, fun name known _ =>
        known_split name known⟩
      intro locked
      simp only [Disk.lock] at locked
      split at locked
      · exact ne (Option.some.inj locked).symm
      · exact ready.free other found' q ne locked
  | assets names node bytes =>
      obtain ⟨ready, among, left⟩ := h
      cases names with
      | nil => exact .inl ⟨_, rfl, ready, left⟩
      | cons name names =>
          refine .inl ⟨_, rfl, ready.unlink (among name (.head _)), fun other mem =>
            among other (.tail _ mem), fun other known there => ?_⟩
          simp only [One.step, Disk.file?_unlink] at there
          split at there
          · cases there
          · rename_i ne
            have where_ := left other known there
            simp only [List.mem_cons] at where_ ⊢
            tauto
  | record node bytes =>
      obtain ⟨ready, left⟩ := h
      obtain ⟨record, release, owner, _⟩ := ready.sound.owner
      obtain ⟨lease, found⟩ := ready.sound.lease
      simp only [One.step, owner]
      refine .inl ⟨_, rfl, (ready.going left).unlink, ?_⟩
      rw [Disk.file?_unlink, if_neg (by decide), found]
      rfl
  | drop node bytes => exact .inl ⟨_, rfl, ⟨h.1.node, h.1.known, h.1.left⟩, h.2⟩
  | lease bytes =>
      obtain ⟨going, there⟩ := h
      obtain ⟨file, found⟩ := Option.isSome_iff_exists.mp there
      simp only [One.step, found]
      exact .inl ⟨_, rfl, going.unlink⟩
  | rmdir bytes =>
      obtain ⟨d, there, node⟩ := h.node
      have empty : d.files.keys = [] := keys_eq_nil there fun name =>
        Option.eq_none_iff_forall_ne_some.mpr fun file found =>
          absurd (h.left name (h.known name file found) (found ▸ rfl)) List.not_mem_nil
      simp only [One.step, there, empty, if_true]
      exact .inr ⟨_, rfl, Gone.rmdir⟩

/-! ### A collector that is left to itself -/

/-- A collector and the disk, while nobody else does anything. -/
def Solo (x : Externals R) (p : Pid) (s t : Collector × Disk) : Prop :=
  ∃ a, s.1.Able s.2 a ∧ t = s.1.step x p a.names s.2

def Collector.handle : Collector → Option Nat
  | .one _ _ _ o => o.handle
  | _ => none

/-- The stage is gone, or it is still to come, or the collector is at it, or is elsewhere before it. -/
def Pending (x : Externals R) (base k : Nat) (X : String) (p : Pid) (s : Collector × Disk) : Prop :=
  match s.1 with
  | .root => False
  | .next left _ => Ready x base k X p s.2 ∧ (X, true) ∈ left
  | .one Y left _ o => Y = X ∧ Promising x base k X p s.2 o ∨ Y ≠ X ∧ Ready x base k X p s.2 ∧ (X, true) ∈ left
  | .done _ => False

structure Alone.Inv (x : Externals R) (base k : Nat) (X : String) (p : Pid) (s : Collector × Disk) : Prop where
  lt : k < s.2.nodes
  held : ∀ node, s.2.locks node = some p → s.1.handle = some node
  started : s.1 ≠ .root
  now : Gone k s.2 X ∨ Pending x base k X p s

/-- What a collector does elsewhere leaves the stage ready. -/
theorem Ready.elsewhere (h : Ready x base k X p disk) {entered : Prop} (takes : One.Takes p Y disk entered disk')
    (ne : X ≠ Y) : Ready x base k X p disk' := by
  obtain ⟨d, there, node⟩ := h.node
  refine ⟨h.sound.congr (takes.op.dir? ne) fun _ _ _ => by rw [takes.data], ⟨d, (takes.op.dir? ne).trans there, node⟩,
    fun file found q other locked => ?_⟩
  rw [takes.op.file?_ne ne] at found
  exact h.free file found q other ((takes.op.locks other).mp locked)

/-- Every step of a collector lowers its rank, and brings it to the stage or past it. -/
theorem Alone.step (roundTrip : ∀ owner, x.fromSlice (x.toVec owner) = some owner)
    (named : "download-".isPrefixOf X = true) {s t : Collector × Disk} (inv : Alone.Inv x base k X p s) (going : ∀ n, s.1 ≠ .done n)
    (move : Solo x p s t) : Alone.Inv x base k X p t ∧ Lower t.1.rank s.1.rank := by
  obtain ⟨a, able, rfl⟩ := move
  obtain ⟨c, disk⟩ := s
  obtain ⟨lt, held, started, now⟩ := inv
  dsimp only at lt held started now able going
  cases c with
  | root => exact absurd rfl started
  | done n => exact absurd rfl (going n)
  | next left bytes =>
      cases left with
      | nil =>
          refine ⟨⟨lt, held, (by rintro ⟨⟩), ?_⟩, .left _ _ (Nat.lt_succ_self _)⟩
          obtain gone | ⟨_, mem⟩ := now
          · exact .inl gone
          · exact absurd mem List.not_mem_nil
      | cons entry left =>
          obtain ⟨Y, isDir⟩ := entry
          have lower : 2 * left.length + 2 < 2 * ((Y, isDir) :: left).length + 1 := by
            rw [List.length_cons]
            omega
          simp only [Collector.step]
          split
          · rename_i skip
            refine ⟨⟨lt, held, (by simp), ?_⟩, .left _ _ (Nat.lt_of_succ_lt lower)⟩
            obtain gone | ⟨ready, mem⟩ := now
            · exact .inl gone
            · refine .inr ⟨ready, (List.mem_cons.mp mem).resolve_left ?_⟩
              rintro ⟨⟩
              simp only [named] at skip
              cases skip
          · refine ⟨⟨lt, held, (by simp), ?_⟩, .left _ _ lower⟩
            obtain gone | ⟨ready, mem⟩ := now
            · exact .inl gone
            · by_cases here : Y = X
              · exact .inr (.inl ⟨here, ready⟩)
              · refine .inr (.inr ⟨here, ready, (List.mem_cons.mp mem).resolve_left ?_⟩)
                rintro ⟨⟩
                exact here rfl
  | one Y left bytes o =>
      have takes : One.Takes p Y disk (o.entered = true) (o.step x p Y a.names disk).2 := o.takes
      have held' := @One.held_step R x disk Y p a.names o held
      have gone (h : Gone k disk X) : Gone k (o.step x p Y a.names disk).2 X := h.op takes.op lt
      have promising (here : Y = X) (promises : Promising x base k X p disk o) :
          (∃ o', (o.step x p Y a.names disk).1 = .goes o' ∧ Promising x base k X p (o.step x p Y a.names disk).2 o') ∨
            ∃ n, (o.step x p Y a.names disk).1 = .reclaimed n ∧ Gone k (o.step x p Y a.names disk).2 X := by
        subst here
        refine promises.step roundTrip held ?_
        rintro rfl
        cases able with
        | list all => exact all
        | one other => exact absurd rfl other
      have elsewhere (ne : Y ≠ X) (ready : Ready x base k X p disk) :
          Ready x base k X p (o.step x p Y a.names disk).2 := ready.elsewhere takes (Ne.symm ne)
      have lt' := Nat.lt_of_lt_of_le lt takes.op.nodes
      have rank := @One.goes_rank R x disk Y p o
      simp only [Collector.step]
      generalize result_ : o.step x p Y a.names disk = result at held' gone promising elsewhere lt'
      obtain ⟨outcome, disk'⟩ := result
      cases outcome with
      | goes o' =>
          refine ⟨⟨lt', fun node locked => ?_, (by simp), ?_⟩, .right _ (rank (congrArg Prod.fst result_))⟩
          · obtain ⟨_, ⟨⟩, handle⟩ := held' node locked
            exact handle
          · obtain here | ⟨here, promises⟩ | ⟨ne, ready, mem⟩ := now
            · exact .inl (gone here)
            · obtain ⟨_, ⟨⟩, promises⟩ | ⟨n, ⟨⟩, _⟩ := promising here promises
              exact .inr (.inl ⟨here, promises⟩)
            · exact .inr (.inr ⟨ne, elsewhere ne ready, mem⟩)
      | failed | reclaimed =>
          refine ⟨⟨lt', fun node locked => ?_, (by simp), ?_⟩, .left _ _ (Nat.lt_succ_self _)⟩
          · obtain ⟨_, same, _⟩ := held' node locked
            cases same
          · obtain here | ⟨here, promises⟩ | ⟨ne, ready, mem⟩ := now
            · exact .inl (gone here)
            · obtain ⟨_, ⟨⟩, _⟩ | ⟨n, _, gone⟩ := promising here promises
              exact .inl gone
            · exact .inr ⟨elsewhere ne ready, mem⟩

theorem Solo.exists_step {c : Collector} (going : ∀ n, c ≠ .done n) : ∃ t, Solo x p (c, disk) t := by
  cases c with
  | root => exact ⟨_, .listed disk.root.keys, .root (List.Perm.refl _), rfl⟩
  | next left bytes => exact ⟨_, .go, .next, rfl⟩
  | done n => exact absurd rfl (going n)
  | one Y left bytes o =>
      by_cases list : o = .list
      · subst list
        cases there : disk.dir? Y with
        | none => exact ⟨_, .listed [], .list (fun d is => by rw [there] at is; cases is), rfl⟩
        | some d =>
            refine ⟨_, .listed d.files.keys, .list (fun d' is => ?_), rfl⟩
            rw [there] at is
            cases is
            exact List.Perm.refl _
      · exact ⟨_, .go, .one list, rfl⟩

/-- A collector that has read a root with few entries ends, and the stage is gone. -/
theorem Solo.leads (roundTrip : ∀ owner, x.fromSlice (x.toVec owner) = some owner)
    (named : "download-".isPrefixOf X = true) (lt : k < disk.nodes) (free : ∀ node, disk.locks node ≠ some p)
    (few : disk.root.entries.length < 256) (now : Gone k disk X ∨ Ready x base k X p disk) :
    Leads (Solo x p) (fun s => (∃ n, s.1 = .done n) ∧ Gone k s.2 X) (.root, disk) := by
  refine .later (exists_step nofun) ?_
  rintro _ ⟨a, able, rfl⟩
  cases able with
  | @root names all =>
      refine Leads.by_rank lower_wf (fun s => s.1.rank) (I := Alone.Inv x base k X p) (fun s inv => ?_)
        ⟨lt, fun node locked => absurd locked (free node), nofun, now.imp id fun ready => ⟨ready, ?_⟩⟩
      · by_cases ended : ∃ n, s.1 = .done n
        · obtain ⟨n, is⟩ := ended
          obtain gone | pending := inv.now
          · exact .inl ⟨⟨n, is⟩, gone⟩
          · unfold Pending at pending
            rw [is] at pending
            exact pending.elim
        · exact .inr ⟨exists_step (not_exists.mp ended), fun t move =>
            .inr (Alone.step roundTrip named inv (not_exists.mp ended) move)⟩
      · have ready : Ready x base k X p disk := ready
        obtain ⟨d, there, _⟩ := ready.node
        have mem : X ∈ names := by
          refine all.mem_iff.mpr (AList.mem_keys.mp (AList.lookup_isSome.mp ?_))
          unfold Disk.dir? at there
          split at there
          · rename_i found
            rw [found]
            rfl
          · cases there
        have length : names.length ≤ 256 := by
          rw [all.length_eq]
          change (disk.root.entries.map Sigma.fst).length ≤ 256
          rw [List.length_map]
          omega
        change (X, true) ∈ ((names.map fun name => (name, (disk.dir? name).isSome)).take 256)
        rw [List.take_of_length_le (by rw [List.length_map]; exact length)]
        exact List.mem_map.mpr ⟨X, mem, by rw [there]; rfl⟩

/-- Only this process does anything. -/
def Alone (x : Externals R) (p : Pid) (w w' : World R) : Prop :=
  ∃ a, World.Permits x w (.act p a) ∧ w' = w.step x (.act p a)

theorem World.setProc_self (proc : Option (Proc R)) (disk : Disk) : (w.setProc p proc disk).procs p = proc :=
  if_pos rfl

theorem World.setProc_setProc (proc proc' : Option (Proc R)) (disk disk' : Disk) :
    (w.setProc p proc disk).setProc p proc' disk' = w.setProc p proc' disk' := by
  unfold setProc
  congr 1
  funext q
  by_cases same : q = p
  · rw [if_pos same, if_pos same]
  · rw [if_neg same, if_neg same]
    exact if_neg same

theorem Alone.collector {c : Collector} {a : Act} :
    (w.setProc p (some (.collector c)) disk).step x (.act p a) =
      w.setProc p (some (.collector (c.step x p a.names disk).1)) (c.step x p a.names disk).2 := by
  simp only [World.step, World.act, World.setProc_self]
  exact World.setProc_setProc _ _ _ _

/-- Left to itself in a world, a collector does what it does alone. -/
theorem Solo.alone {goal : Collector × Disk → Prop} {goal' : World R → Prop} {s : Collector × Disk}
    (h : Leads (Solo x p) goal s) (goals : ∀ s, goal s → goal' (w.setProc p (some (.collector s.1)) s.2)) :
    Leads (Alone x p) goal' (w.setProc p (some (.collector s.1)) s.2) := by
  refine h.lift (fun s => w.setProc p (some (.collector s.1)) s.2) ?_ ?_ goals
  · rintro s _ ⟨a, able, rfl⟩
    exact ⟨a, .collector (World.setProc_self _ _) able, Alone.collector.symm⟩
  · rintro s u ⟨a, permitted, rfl⟩
    cases permitted with
    | downloader is =>
        rw [World.setProc_self] at is
        cases is
    | collector is able =>
        rw [World.setProc_self] at is
        cases is
        exact ⟨_, ⟨a, able, rfl⟩, Alone.collector⟩

/-! ### Every run -/

/-- Every stage of a downloader has a name that collectors look at. -/
theorem named_run {w₀ : World R} (initial : w₀.Initial) (run : FreshRun x w₀ w) {d : Downloader R}
    (is : w.procs p = some (.downloader d)) (at_ : d.at_ = some X) : "download-".isPrefixOf X = true := by
  refine Runs.invariant (I := fun v => ∀ p d X, v.procs p = some (.downloader d) → d.at_ = some X →
    "download-".isPrefixOf X = true) ?_ run (fun p d X is => by rw [initial.procs p] at is; cases is) p d X is at_
  intro v e permitted before q other Y is at_
  obtain ⟨permitted, _⟩ := permitted
  cases permitted with
  | @download r release =>
      change (if q = r then _ else v.procs q) = _ at is
      split at is
      · cases is
        cases at_
      · exact before q other Y is at_
  | @collect r | @kill r =>
      change (if q = r then _ else v.procs q) = _ at is
      split at is
      · cases is
      · exact before q other Y is at_
  | @downloader r e a was able =>
      simp only [World.step, World.act, was] at is
      change (if q = r then _ else v.procs q) = _ at is
      split at is
      · obtain ⟨_, goes, ⟨⟩⟩ := Option.map_eq_some_iff.mp is
        rw [Downloader.stays able goes] at at_
        obtain here | ⟨b, draw⟩ := Inv.at_of_place able at_
        · exact before r e Y was here
        · subst draw
          cases able with
          | tempdir named => exact named
      · exact before q other Y is at_
  | @collector r c a was able =>
      simp only [World.step, World.act, was] at is
      change (if q = r then _ else v.procs q) = _ at is
      split at is
      · cases is
      · exact before q other Y is at_

/-- A downloader whose record is completely written. -/
def Downloader.complete : Downloader R → Bool
  | write _ _ _ [] | staged _ _ => true
  | _ => false

theorem Standing.of_complete (inv : Inv x base w) {e : Downloader R} (is : w.procs p = some (.downloader e))
    (complete : e.complete = true) (at_ : e.at_ = some X) (there : w.disk.dir? X = some d) :
    Standing x base d.node X w d := by
  have known : e.Local x base p w.disk := inv.known p _ is
  have past (q : Pid) (other : Downloader R) (is' : w.procs q = some (.downloader other)) (at_' : other.at_ = some X) :
      other.past = true := by
    by_cases same : q = p
    · subst same
      rw [is] at is'
      cases is'
      cases e with
      | write X node record left => cases left <;> first | rfl | cases complete
      | staged => rfl
      | tempdir | permissions | openLease | lockLease | openRecord | close | list | clear | rmdir => cases complete
    · exact absurd at_' (inv.pair p q _ _ (Ne.symm same) is is' X at_)
  have sound : Sound x base w.disk X := by
    cases e with
    | staged Y node =>
        cases at_
        exact known.1
    | write Y node record left =>
        cases at_
        cases left with
        | cons => cases complete
        | nil => exact (Downloader.known_step inv (a := .go) .written known rfl).1
    | tempdir | permissions | openLease | lockLease | openRecord | close | list | clear | rmdir => cases complete
  obtain ⟨d', there', mine⟩ := sound.isPrivate
  rw [there] at there'
  cases there'
  obtain ⟨node, lease⟩ := sound.lease
  exact ⟨there, rfl, mine, sound.known, .inl sound.owner, .inl (lease ▸ rfl), past⟩

/-- Collecting download stages. Where no downloader draws the name of a stage that is in use, and nobody is killed while
taking down one that lacks its record or its lease, a stage with a whole record that nobody is at any more is gone after the
next collection that is left to itself. And no other stage is touched: not one whose lease another process has, and not
one without an authentic record, or with a file of another name, at which there are only collectors that stop there. -/
theorem collect_downloads_exact (roundTrip : ∀ owner, x.fromSlice (x.toVec owner) = some owner) {w₀ : World R}
    (initial : w₀.Initial) :
    (∀ {w₁ w₂ : World R} {p q : Pid} {e : Downloader R} {X : String} {d : Dir}, FreshRun x w₀ w₁ →
      w₁.procs p = some (.downloader e) → e.complete = true → e.at_ = some X → w₁.disk.dir? X = some d →
      SparingRun x X w₁ w₂ → (∀ r proc, w₂.procs r = some proc → proc.at_ ≠ some X) →
      w₂.disk.root.entries.length < 256 → w₂.procs q = none →
        Leads (Alone x q) (fun w => (∃ n, w.procs q = some (.collector (.done n))) ∧ Gone d.node w.disk X)
          (w₂.step x (.collect q))) ∧
      (∀ {w : World R} {p q : Pid} {c : Collector} {a : Act} {X : String} {file : File}, FreshRun x w₀ w →
        w.procs p = some (.collector c) → w.disk.file? X "lease" = some file → w.disk.locks file.node = some q → q ≠ p →
          (∀ name, name ≠ "lease" → (w.step x (.act p a)).disk.file? X name = w.disk.file? X name) ∧
            (w.step x (.act p a)).disk.data = w.disk.data ∧
            ∀ e, w.procs q = some (.downloader e) → w₀.disk.nodes ≤ file.node →
              (w.step x (.act p a)).disk.dir? X = w.disk.dir? X) ∧
      (∀ {w : World R} {q : Pid} {e : Downloader R} {ev : Event R} {X : String} {file : File}, FreshRun x w₀ w →
        w.procs q = some (.downloader e) → w.disk.file? X "lease" = some file → w.disk.locks file.node = some q →
          w₀.disk.nodes ≤ file.node → World.Permits x w ev → (∀ a, ev ≠ .act q a) → Same X w.disk (w.step x ev).disk) ∧
      ∀ {w w' : World R} {X : String} {d : Dir}, FreshRun x w₀ w → w.disk.dir? X = some d → Refuses x w.disk X →
        OnlyStopped x w X → FreshRun x w w' → Same X w.disk w'.disk := by
  have inv₀ : Inv x w₀.disk.nodes w₀ := Inv.initial initial
  refine ⟨?_, ?_, ?_, ?_⟩
  · intro w₁ w₂ p q e X d run is complete at_ there sparing nobody few free
    have inv := Inv.run run inv₀
    have standing := Standing.of_complete inv is complete at_ there
    obtain ⟨inv', lt, now⟩ := standing.run inv sparing
    have unlocked := inv'.unlocked_of_handle (p := q) fun proc is => by
      rw [free] at is
      cases is
    have ready : Gone d.node w₂.disk X ∨ Ready x w₀.disk.nodes d.node X q w₂.disk := by
      refine now.imp id fun ⟨d', standing⟩ => ?_
      obtain ⟨sound, free⟩ := standing.sound inv' nobody
      refine ⟨sound, ⟨d', standing.there, standing.node⟩, fun file found r _ locked => ?_⟩
      rw [free file found] at locked
      cases locked
    have leads := Solo.leads roundTrip (named_run initial run is at_) lt unlocked few ready
    refine Solo.alone leads fun s ⟨⟨n, ended⟩, gone⟩ => ⟨⟨n, ?_⟩, gone⟩
    rw [World.setProc_self, ended]
  · intro w p q c a X file run is lease locked ne
    exact (Inv.run run inv₀).leased_untouched is lease locked ne
  · intro w q e ev X file run is lease locked le permitted other
    exact (Inv.run run inv₀).held_untouched is lease locked le permitted other
  · intro w w' X d run there no at_ run'
    exact (Inv.run run inv₀).refused_untouched there no at_ run'

/-! ### Two runs -/

def readText : Bytes → List Char
  | a :: b :: c :: d :: rest => Char.ofNat (fromBe [a, b, c, d]) :: readText rest
  | _ => []

/-- Records of a directory's name and nothing more. -/
def plainRecords : Externals Unit where
  toVec owner := owner.schema :: owner.nonce.toList.flatMap fun c => toBe 4 c.toNat
  fromSlice
    | schema :: text => some ⟨schema, String.ofList (readText text), ()⟩
    | [] => none
  restore _ := true

theorem readText_flatMap (text : List Char) : readText (text.flatMap fun c => toBe 4 c.toNat) = text := by
  induction text with
  | nil => rfl
  | cons c text ih =>
      have small : c.toNat < 256 ^ 4 := Nat.lt_of_lt_of_le c.val.toNat_lt (by decide)
      have four : toBe 4 c.toNat = [UInt8.ofNat (c.toNat / 256 / 256 / 256), UInt8.ofNat (c.toNat / 256 / 256),
          UInt8.ofNat (c.toNat / 256), UInt8.ofNat c.toNat] := rfl
      rw [List.flatMap_cons, four]
      change Char.ofNat (fromBe _) :: readText (text.flatMap fun c => toBe 4 c.toNat) = c :: text
      rw [ih, ← four, fromBe_toBe 4 _ small, Char.ofNat_toNat]

theorem plainRecords_roundTrip (owner : Owner Unit) : plainRecords.fromSlice (plainRecords.toVec owner) = some owner := by
  change some (⟨owner.schema, String.ofList (readText (owner.nonce.toList.flatMap fun c => toBe 4 c.toNat)), ()⟩ :
    Owner Unit) = some owner
  rw [readText_flatMap, String.ofList_toList]

def noStages : World Unit := ⟨⟨∅, fun _ => [], 0, fun _ => none⟩, fun _ => none⟩

theorem noStages_initial : noStages.Initial where
  procs := fun _ => rfl
  locks := fun _ => rfl
  files := fun X name file there => by
    cases there
  dirs := fun X d there => by
    cases there

/-- A downloader makes a stage and has written its record. -/
def downloading : List (Event Unit) :=
  [.download 0 (), .act 0 (.draw "download-a" true), .act 0 .go, .act 0 .go, .act 0 .go, .act 0 .go, .act 0 (.part 41),
    .act 0 .go]

def downloaded : World Unit := downloading.foldl (World.step plainRecords) noStages

theorem fresh_of_other {e : Event R} (not_ : ∀ p X b, e ≠ .act p (.draw X b)) : w.Fresh e :=
  fun p X b is => absurd is (not_ p X b)

theorem downloading_run : FreshRun plainRecords noStages downloaded := by
  have fits : Khor.Fits (World.step plainRecords) (fun w e => World.Permits plainRecords w e ∧ w.Fresh e) noStages
      downloading := by
    refine ⟨⟨.download rfl rfl, fresh_of_other nofun⟩, ⟨.downloader rfl (.tempdir (by decide +kernel) ?_), ?_⟩,
      ⟨.downloader rfl .permissions, fresh_of_other nofun⟩, ⟨.downloader rfl .openLease, fresh_of_other nofun⟩,
      ⟨.downloader rfl (.lockLease rfl), fresh_of_other nofun⟩, ⟨.downloader rfl .openRecord, fresh_of_other nofun⟩,
      ⟨.downloader rfl (.write (by decide) (by decide +kernel)), fresh_of_other nofun⟩,
      ⟨.downloader rfl .written, fresh_of_other nofun⟩, trivial⟩
    · exact AList.notMem_empty _
    · rintro _ _ _ ⟨⟩ q proc is
      change (if q = 0 then _ else none) = some proc at is
      split at is
      · cases is
        exact nofun
      · cases is
  exact fits.runs

/-- A collector is in a stage and does not list it. -/
def World.atCall (w : World R) (p : Pid) : Bool :=
  match w.procs p with
  | some (.collector (.one _ _ _ .list)) => false
  | some (.collector (.one _ _ _ _)) => true
  | _ => false

theorem goes_on (at_ : w.atCall p = true) : World.Permits x w (.act p .go) ∧ w.Fresh (.act p .go) := by
  refine ⟨?_, fresh_of_other nofun⟩
  unfold World.atCall at at_
  split at at_
  · cases at_
  · rename_i is
    exact .collector is (.one fun same => by subst same; simp_all)
  · cases at_

/-- The stage that a collector lists. -/
def World.lists (w : World R) (p : Pid) : Option String :=
  match w.procs p with
  | some (.collector (.one X _ _ .list)) => some X
  | _ => none

theorem lists_on (at_ : w.lists p = some X) (all : (w.disk.dir? X).map (fun d => d.files.keys) = some names) :
    World.Permits x w (.act p (.listed names)) ∧ w.Fresh (.act p (.listed names)) := by
  refine ⟨?_, fresh_of_other nofun⟩
  unfold World.lists at at_
  split at at_
  · rename_i is
    cases at_
    refine .collector is (.list fun d there => ?_)
    rw [there] at all
    cases all
    exact List.Perm.refl _
  · cases at_

/-- A collector takes it, comes as far as the record, and is killed. -/
def collecting : List (Event Unit) :=
  [.collect 1, .act 1 (.listed ["download-a"]), .act 1 .go, .act 1 .go, .act 1 (.listed ["owner.json", "lease"]),
    .act 1 .go, .act 1 .go, .act 1 .go, .act 1 .go, .act 1 .go, .act 1 .go, .act 1 .go, .act 1 .go, .act 1 .go,
    .act 1 .go, .act 1 .go, .act 1 .go, .act 1 .go, .act 1 .go, .kill 1]

def abandoned : World Unit := downloaded.step plainRecords (.kill 0)

def interrupted : World Unit := collecting.foldl (World.step plainRecords) abandoned

theorem collecting_run : FreshRun plainRecords downloaded interrupted := by
  have fits : Khor.Fits (World.step plainRecords) (fun w e => World.Permits plainRecords w e ∧ w.Fresh e) downloaded
      (.kill 0 :: collecting) :=
    ⟨⟨.kill rfl, fresh_of_other nofun⟩, ⟨.collect rfl, fresh_of_other nofun⟩,
      ⟨.collector rfl (.root (List.Perm.refl _)), fresh_of_other nofun⟩, ⟨.collector rfl .next, fresh_of_other nofun⟩,
      goes_on (by decide +kernel), lists_on (X := "download-a") (by decide +kernel) (by decide +kernel),
      goes_on (by decide +kernel), goes_on (by decide +kernel), goes_on (by decide +kernel),
      goes_on (by decide +kernel), goes_on (by decide +kernel), goes_on (by decide +kernel),
      goes_on (by decide +kernel), goes_on (by decide +kernel), goes_on (by decide +kernel),
      goes_on (by decide +kernel), goes_on (by decide +kernel), goes_on (by decide +kernel),
      goes_on (by decide +kernel), goes_on (by decide +kernel), ⟨.kill rfl, fresh_of_other nofun⟩, trivial⟩
  exact fits.runs

def Event.pid : Event R → Pid
  | .download p _ | .collect p | .act p _ | .kill p => p

/-- A process changes only by its own events. -/
theorem procs_run {es : List (Event R)} (not_ : ∀ e ∈ es, q ≠ e.pid) (w : World R) :
    (es.foldl (World.step x) w).procs q = w.procs q := by
  induction es generalizing w with
  | nil => rfl
  | cons e es ih =>
      rw [List.foldl_cons, ih fun other mem => not_ other (List.mem_cons_of_mem _ mem)]
      have ne : q ≠ e.pid := not_ e (.head _)
      cases e with
      | download p release | collect p | kill p => exact if_neg ne
      | act p a =>
          simp only [World.step, World.act]
          split
          · exact if_neg ne
          · exact if_neg ne
          · rfl

theorem downloading_pid : ∀ e ∈ downloading, e.pid = 0 := by
  intro e mem
  simp only [downloading, List.mem_cons, List.not_mem_nil, or_false] at mem
  rcases mem with rfl | rfl | rfl | rfl | rfl | rfl | rfl | rfl <;> rfl

theorem nobody_abandoned (q : Pid) : abandoned.procs q = none := by
  by_cases zero : q = 0
  · exact if_pos zero
  · refine (if_neg zero).trans (procs_run (fun e mem => ?_) noStages)
    rw [downloading_pid e mem]
    exact zero

theorem collecting_pid : ∀ e ∈ collecting, e.pid = 1 := by
  intro e mem
  simp only [collecting, List.mem_cons, List.not_mem_nil, or_false] at mem
  rcases mem with rfl | rfl | rfl | rfl | rfl | rfl | rfl | rfl | rfl | rfl | rfl | rfl | rfl | rfl | rfl | rfl | rfl | rfl |
    rfl | rfl <;> rfl

theorem nobody_interrupted (q : Pid) : interrupted.procs q = none := by
  by_cases one : q = 1
  · rw [one]
    rfl
  · refine (procs_run (fun e mem => ?_) abandoned).trans (nobody_abandoned q)
    rw [collecting_pid e mem]
    exact one

/-- A collector that is left to itself draws no name. -/
theorem Alone.fresh {c : Collector} (is : w.procs p = some (.collector c)) (run : Relation.ReflTransGen (Alone x p) w w') :
    FreshRun x w w' ∧ ∃ c', w'.procs p = some (.collector c') := by
  induction run with
  | refl => exact ⟨.refl w, c, is⟩
  | tail _ move ih =>
      obtain ⟨run, c', is'⟩ := ih
      obtain ⟨a, permitted, rfl⟩ := move
      refine ⟨Relation.ReflTransGen.tail run ⟨.act p a, ⟨permitted, fresh_of_other ?_⟩, rfl⟩, ?_⟩
      · rintro q X b ⟨⟩
        cases permitted with
        | downloader is'' =>
            rw [is'] at is''
            cases is''
        | collector _ able => cases able
      · simp only [World.step, World.act, is']
        exact ⟨_, if_pos rfl⟩

/-- A collector that is killed between the record and the directory leaves a stage that no later collection takes. -/
theorem killed_after_the_record_is_never_reclaimed :
    ¬ ∀ {w₁ w₂ : World Unit} {p q : Pid} {e : Downloader Unit} {X : String} {d : Dir},
      FreshRun plainRecords noStages w₁ → w₁.procs p = some (.downloader e) → e.complete = true → e.at_ = some X →
      w₁.disk.dir? X = some d → FreshRun plainRecords w₁ w₂ → (∀ r proc, w₂.procs r = some proc → proc.at_ ≠ some X) →
      w₂.disk.root.entries.length < 256 → w₂.procs q = none →
        Leads (Alone plainRecords q) (fun w => (∃ n, w.procs q = some (.collector (.done n))) ∧ Gone d.node w.disk X)
          (w₂.step plainRecords (.collect q)) := by
  intro claim
  have leads := claim (p := 0) (q := 1) (X := "download-a") downloading_run rfl rfl rfl rfl collecting_run
    (fun r proc is => by rw [nobody_interrupted r] at is; cases is) (by decide +kernel) (nobody_interrupted 1)
  obtain ⟨t, run, _, gone⟩ := leads.reached
  obtain ⟨run, _⟩ := Alone.fresh (c := .root) rfl run
  have inv : Inv plainRecords 0 interrupted := Inv.run (downloading_run.trans collecting_run) (Inv.initial noStages_initial)
  have collected : FreshRun plainRecords interrupted (interrupted.step plainRecords (.collect 1)) :=
    .single ⟨_, ⟨.collect (nobody_interrupted 1), fresh_of_other nofun⟩, rfl⟩
  have number : (interrupted.disk.dir? "download-a").map Dir.node = some 0 := by decide +kernel
  obtain ⟨d, there, node⟩ := Option.map_eq_some_iff.mp number
  have same := inv.refused_untouched there (.inr fun file found => ?_)
    (fun r proc is => absurd is (by rw [nobody_interrupted r]; exact nofun)) (collected.trans run)
  · exact gone d (same.dir.trans there) node
  · have none_ : (interrupted.disk.file? "download-a" "owner.json").isNone = true := by decide +kernel
    rw [found] at none_
    cases none_

theorem collect_downloads_exact_abandoned :
    Leads (Alone plainRecords 1) (fun w => (∃ n, w.procs 1 = some (.collector (.done n))) ∧ Gone 0 w.disk "download-a")
      (abandoned.step plainRecords (.collect 1)) :=
  (collect_downloads_exact plainRecords_roundTrip noStages_initial).1 (p := 0) (X := "download-a") downloading_run rfl rfl rfl
    rfl (.single ⟨.kill 0, ⟨⟨.kill rfl, fresh_of_other nofun⟩, fun p proc is there at_ takes => by
      cases is
      cases there
      cases takes⟩, rfl⟩)
    (fun r proc is => by rw [nobody_abandoned r] at is; cases is) (by decide +kernel) (nobody_abandoned 1)

end Khor.Update
