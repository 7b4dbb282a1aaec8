/-
Module: Khor.Runtime.Retention
Purpose: What the retention index names, what is reserved and what a lease occupies stays whole on disk,
  whatever processes sharing a store do and wherever they are killed.
Trusted boundary: the catalog lock is exclusive
Main exports: Machine.Protected, Generation, Sound, Request, protected_generations_stay
-/
import Khor.Runtime.Store

namespace Khor.Runtime

open Script

/-- The directory of a generation: a manifest of that name, the program it describes, a lease file, and
nothing else. -/
structure Generation (x : Externals) (id : Id) (identity : Identity) (dir : Dir) : Prop where
  manifest : ∃ file, dir .manifest = some file ∧ x.fromSlice file.bytes = some identity
  named : identity.id x = id
  files : ∀ f, (dir f).isSome ↔ f ∈ [FileName.program identity.role, .manifest, .lease]
  program : ∃ file, dir (.program identity.role) = some file ∧
    hashOf x file.bytes = (identity.digest, identity.bytes)

namespace Machine

/-- All of a generation is there. -/
def Complete (x : Externals) (s : Machine) (id : Id) : Prop :=
  ∃ dir identity, s.dirs (.generation id) = some dir ∧ Generation x id identity dir

/-- In the retention index. -/
def Indexed (s : Machine) (id : Id) : Prop := ∃ index, s.index = some index ∧ index.Names id

/-- A reservation names it. -/
def Reserved (s : Machine) (id : Id) : Prop := (s.reservations id).isSome

/-- Held under a live lease. -/
def Occupied (s : Machine) (id : Id) : Prop := ∃ lease ∈ s.leases, lease.2.path = .generation id

/-- Indexed, reserved or leased. -/
def Protected (s : Machine) (id : Id) : Prop := s.Indexed id ∨ s.Reserved id ∨ s.Occupied id

end Machine

/-- An open lease file is the one in the generation its image was taken from. -/
def LeaseFits (s : Machine) (image : Image) : Prop :=
  ∃ id file, image.path = .generation id ∧ s.file image.path .lease = some file ∧
    file.inode = image.inode

/-- What holds of the store at every moment. -/
structure Sound (x : Externals) (s : Machine) : Prop where
  complete : ∀ id, s.Protected id → s.Complete x id
  leases : ∀ lease ∈ s.leases, LeaseFits s lease.2
  index : ∀ index, s.index = some index → index.wellFormed = true

section Calls

variable {F : Call → Prop} {p : Pid} {c : Call} {s t : Machine} {r : Except Fault (Reply c)}

namespace Machine.Others

variable (o : s.Others t)
include o

/-- Others leave the directories alone. -/
theorem dirs : t.dirs = s.dirs := by
  obtain ⟨ls, rfl, _⟩ := o
  rfl

theorem index : t.index = s.index := by
  obtain ⟨ls, rfl, _⟩ := o
  rfl

theorem reservations : t.reservations = s.reservations := by
  obtain ⟨ls, rfl, _⟩ := o
  rfl

theorem inodes : t.inodes = s.inodes := by
  obtain ⟨ls, rfl, _⟩ := o
  rfl

/-- They take no lease. -/
theorem lease {l : Pid × Image} (mem : l ∈ t.leases) : ∃ l' ∈ s.leases, l'.2 = l.2 := by
  obtain ⟨ls, rfl, from_s⟩ := o
  exact from_s l mem

theorem file (d : Directory) (f : FileName) : t.file d f = s.file d f := by
  unfold Machine.file
  rw [o.dirs]

theorem occupied {id : Id} (h : t.Occupied id) : s.Occupied id := by
  obtain ⟨l, mem, path⟩ := h
  obtain ⟨l', mem', same⟩ := o.lease mem
  exact ⟨l', mem', same ▸ path⟩

/-- They protect nothing more. -/
theorem protected_ {id : Id} (h : t.Protected id) : s.Protected id := by
  rcases h with ⟨index, at_, named⟩ | reserved | occupied
  · exact .inl ⟨index, o.index ▸ at_, named⟩
  · exact .inr (.inl (by unfold Machine.Reserved at *; rwa [← o.reservations]))
  · exact .inr (.inr (o.occupied occupied))

end Machine.Others

/-- The store stays sound while others work. -/
theorem Sound.others {x : Externals} (o : s.Others t) (h : Sound x s) : Sound x t where
  complete id prot := by
    obtain ⟨dir, identity, at_, whole⟩ := h.complete id (o.protected_ prot)
    exact ⟨dir, identity, by rw [o.dirs]; exact at_, whole⟩
  leases l mem := by
    obtain ⟨l', mem', same⟩ := o.lease mem
    obtain ⟨id, file, path, at_, inode⟩ := h.leases l' mem'
    rw [same] at path at_ inode
    exact ⟨id, file, path, by rw [o.file]; exact at_, inode⟩
  index index at_ := h.index index (o.index ▸ at_)

/-- Calls that only look. -/
def Call.Reads : Call → Prop
  | .readRoot | .readDir _ | .present _ | .read _ _ | .vacant _ | .readIndex | .readReservation _ =>
      True
  | _ => False

/-- A look changes nothing. -/
theorem reads_same (reads : c.Reads) (h : s.MayDo F p c r t) : t = s := by
  rcases h with h | ⟨_, same, _⟩
  · cases c <;> first | exact h.1 | exact reads.elim
  · exact same

/-- Directories other than those of generations. -/
def Directory.Aside : Directory → Prop
  | .generation _ => False
  | _ => True

/-- Calls that leave generations, the index, reservations and leases alone. -/
def Call.Aside : Call → Prop
  | .createDir d | .removeDir d | .create d _ | .write d _ _ | .removeFile d _ => d.Aside
  | .rename d d' => d.Aside ∧ d'.Aside
  | .take _ _ | .renameIndex _ | .persistReservation _ _ | .removeReservation _ => False
  | _ => True

/-- What such calls leave alone. -/
structure Machine.Beside (s t : Machine) : Prop where
  index : t.index = s.index
  reservations : t.reservations = s.reservations
  leases : t.leases = s.leases
  generations : ∀ id, t.dirs (.generation id) = s.dirs (.generation id)

namespace Machine.Beside

theorem refl (s : Machine) : s.Beside s := ⟨rfl, rfl, rfl, fun _ => rfl⟩

theorem trans {u : Machine} (one : s.Beside t) (two : t.Beside u) : s.Beside u :=
  ⟨two.index.trans one.index, two.reservations.trans one.reservations,
    two.leases.trans one.leases, fun id => (two.generations id).trans (one.generations id)⟩

theorem setDir {d : Directory} (aside : d.Aside) (dir : Option Dir) : s.Beside (s.setDir d dir) where
  index := rfl
  reservations := rfl
  leases := rfl
  generations id := by
    refine Function.update_of_ne ?_ _ _
    rintro rfl
    exact aside

theorem inodes {n : Nat} (h : s.Beside t) : s.Beside { t with inodes := n } :=
  ⟨h.index, h.reservations, h.leases, h.generations⟩

end Machine.Beside

/-- A call beside the generations leaves them alone. -/
theorem does_beside (aside : c.Aside) (h : s.Does p c r t) : s.Beside t := by
  cases c with
  | readRoot | readDir | present | read | vacant | readIndex | readReservation => exact h.1 ▸ .refl s
  | createDir d =>
      rcases Machine.does_createDir h with ⟨_, _, rfl⟩ | ⟨_, rfl⟩
      · exact .setDir aside _
      · exact .refl _
  | removeDir d =>
      rcases Machine.does_removeDir h with ⟨_, _, rfl⟩ | ⟨_, _, rfl⟩
      · exact .setDir aside _
      · exact .refl _
  | rename d d' =>
      rcases Machine.does_rename h with ⟨_, _, _, _, rfl⟩ | ⟨_, rfl⟩
      · exact (Machine.Beside.setDir aside.1 _).trans (.setDir aside.2 _)
      · exact .refl _
  | create d f =>
      rcases Machine.does_create h with ⟨_, _, _, _, rfl⟩ | ⟨_, rfl⟩
      · exact (Machine.Beside.setDir aside _).inodes
      · exact .refl _
  | write d f bytes =>
      rcases Machine.does_write h with ⟨_, _, _, _, _, rfl⟩ | ⟨_, rfl⟩
      · exact .setDir aside _
      · exact .refl _
  | removeFile d f =>
      rcases Machine.does_removeFile h with ⟨_, _, _, _, _, rfl⟩ | ⟨_, _, rfl⟩
      · exact .setDir aside _
      · exact .refl _
  | take | renameIndex | persistReservation | removeReservation => exact aside.elim

theorem aside_beside (aside : c.Aside) (h : s.MayDo F p c r t) : s.Beside t := by
  rcases h with h | ⟨_, same, _⟩
  · exact does_beside aside h
  · exact same ▸ .refl s

/-- The same generations stay protected. -/
theorem Machine.Beside.protected_iff (b : s.Beside t) {id : Id} : t.Protected id ↔ s.Protected id := by
  unfold Machine.Protected Machine.Indexed Machine.Reserved Machine.Occupied
  rw [b.index, b.reservations, b.leases]

/-- And the store sound. -/
theorem Sound.beside {x : Externals} (b : s.Beside t) (h : Sound x s) : Sound x t where
  complete id prot := by
    obtain ⟨dir, identity, at_, whole⟩ := h.complete id (b.protected_iff.1 prot)
    exact ⟨dir, identity, (b.generations id).trans at_, whole⟩
  leases l mem := by
    obtain ⟨id, file, path, at_, inode⟩ := h.leases l (b.leases ▸ mem)
    refine ⟨id, file, path, ?_, inode⟩
    rw [path] at at_ ⊢
    unfold Machine.file at *
    rwa [b.generations id]
  index index at_ := h.index index (b.index ▸ at_)

end Calls

/-- Three different names, none of them foreign: all three are there. -/
theorem all_listed {files : List FileName} {role : Role} (nodup : files.Nodup)
    (allowed : ∀ f ∈ files, f ∈ [FileName.program role, .manifest, .lease]) (three : files.length = 3)
    (f : FileName) : f ∈ files ↔ f ∈ [FileName.program role, .manifest, .lease] := by
  have perm : files.Perm [FileName.program role, .manifest, .lease] :=
    (List.Nodup.subperm nodup allowed).perm_of_length_le (by simp [three])
  exact perm.mem_iff

section Looking

variable {F : Call → Prop} {p : Pid} {τ : Terms Call Reply Fault Machine} {s : Machine}
  {α β : Type}

/-- Terms on which an operation of process `p` works on the store. -/
structure OnStore (F : Call → Prop) (p : Pid) (τ : Terms Call Reply Fault Machine) : Prop where
  does : ∀ {c s r t}, τ.does c s r t → s.MayDo F p c r t
  others : ∀ {s t}, τ.others s t → s.Others t
  own : ∀ s, τ.own s s

/-- A look on its own terms. -/
theorem OnStore.look (on : OnStore F p τ) (rest : τ.rest s) (c : Call) (reads : c.Reads)
    {post : Except Fault (Reply c) → Machine → Prop}
    (h : ∀ r t, s.Others t → τ.rest t → t.MayDo F p c r t → post r t) : (sys c).Holds τ post s := by
  refine ⟨rest, fun s' answer t other does => ?_⟩
  obtain rfl := reads_same reads (on.does does)
  exact ⟨on.own t, τ.keeps other rest, h answer t (on.others other) (τ.keeps other rest) (on.does does)⟩

/-- A program that changes nothing and returns only such values. -/
def Looks (τ : Terms Call Reply Fault Machine) (op : Op α) (Q : α → Prop) (s : Machine) : Prop :=
  op.Holds τ (fun r t => s.Others t ∧ ∀ a, r = .ok a → Q a) s

variable {Q : α → Prop}

theorem Looks.ended (rest : τ.rest s) {r : Except Fault α} (h : ∀ a, r = .ok a → Q a) : Looks τ (.ended r) Q s :=
  ⟨rest, .refl s, h⟩

theorem Looks.returns (rest : τ.rest s) {a : α} (h : Q a) : Looks τ (pure a) Q s := by
  refine Looks.ended rest fun b same => ?_
  cases same
  exact h

theorem Looks.fails (rest : τ.rest s) (e : Fault) : Looks τ (fail e) Q s :=
  Looks.ended rest nofun

theorem Looks.require {b : Bool} (rest : τ.rest s) (e : Fault) :
    Looks τ (require b e) (fun _ => b = true) s := by
  cases b
  · exact Looks.fails rest e
  · exact Looks.ended rest fun _ _ => rfl

/-- A look at the store is one call. -/
theorem Looks.sys (on : OnStore F p τ) (rest : τ.rest s) (c : Call) (reads : c.Reads) {Q : Reply c → Prop}
    (h : ∀ a t, s.Others t → t.MayDo F p c (.ok a) t → Q a) : Looks τ (sys c) Q s := by
  refine on.look rest c reads fun r t o _ does => ⟨o, fun a same => ?_⟩
  subst same
  exact h a t o does

/-- After a program that looks, whatever comes next starts where it started. -/
theorem Looks.attempt {op : Op α} (h : Looks τ op Q s) {f : Except Fault α → Op β}
    {post : Except Fault β → Machine → Prop}
    (next : ∀ r t, τ.rest t → s.Others t → (∀ a, r = .ok a → Q a) → (f r).Holds τ post t) :
    (op.attempt f).Holds τ post s :=
  Holds.attempt (h.mono fun r t rest now => next r t rest now.1 now.2)

/-- What was looked at still stands for what comes next. -/
theorem Looks.andThen {op : Op α} (h : Looks τ op Q s) {f : α → Op β} {post : Except Fault β → Machine → Prop}
    (next : ∀ a t, τ.rest t → s.Others t → Q a → (f a).Holds τ post t)
    (error : ∀ e t, τ.rest t → s.Others t → post (.error e) t) : (op >>= f).Holds τ post s :=
  Holds.bind h (fun a t rest now => next a t rest now.1 (now.2 a rfl))
    fun e t rest now => error e t rest now.1

/-- Looks can be put together. -/
theorem Looks.bind {op : Op α} {Q' : β → Prop} (h : Looks τ op Q s) {f : α → Op β}
    (next : ∀ a t, τ.rest t → s.Others t → Q a → Looks τ (f a) Q' t) : Looks τ (op >>= f) Q' s := by
  refine h.andThen (fun a t rest o q => ?_) (fun e t _ o => ⟨o, nofun⟩)
  exact (next a t rest o q).mono fun r u _ now => ⟨o.trans now.1, now.2⟩

theorem looks_parse (rest : τ.rest s) (x : Externals) (bytes : Bytes) :
    Looks τ (parse x bytes) (fun identity => x.fromSlice bytes = some identity) s := by
  unfold parse
  cases parsed : x.fromSlice bytes with
  | none => exact Looks.fails rest _
  | some identity => exact Looks.returns rest rfl

variable (on : OnStore F p τ) (rest : τ.rest s)
include on rest

/-- A file is read as it stands. -/
theorem looks_read (d : Directory) (f : FileName) :
    Looks τ (sys (.read d f))
      (fun bytes => ∃ file, s.file d f = some file ∧ file.bytes = bytes) s := by
  refine Looks.sys on rest (.read d f) trivial fun bytes t o does => ?_
  rcases does with ⟨_, same⟩ | ⟨_, _, _, same⟩
  · rw [o.file] at same
    cases there : s.file d f with
    | none => rw [there] at same; cases same
    | some file =>
        rw [there] at same
        exact ⟨file, rfl, (Except.ok.inj same).symm⟩
  · cases same

/-- And refused beyond the limit. -/
theorem looks_readBounded (d : Directory) (f : FileName) (limit : Nat) :
    Looks τ (readBounded d f limit)
      (fun bytes => (∃ file, s.file d f = some file ∧ file.bytes = bytes) ∧ bytes.length ≤ limit)
      s := by
  refine (looks_read on rest d f).bind fun bytes t rest _ found => ?_
  exact (Looks.require rest _).bind fun _ u rest _ small =>
    Looks.returns rest ⟨found, of_decide_eq_true small⟩

/-- A directory is listed once, file by file. -/
theorem looks_readDir (d : Directory) :
    Looks τ (sys (.readDir d))
      (fun files => ∃ dir, s.dirs d = some dir ∧ files.Nodup ∧ ∀ f, f ∈ files ↔ (dir f).isSome)
      s := by
  refine Looks.sys on rest (.readDir d) trivial fun files t o does => ?_
  rcases does with ⟨_, same⟩ | ⟨_, _, _, same⟩
  · rw [o.dirs] at same
    cases there : s.dirs d with
    | none => rw [there] at same; cases same
    | some dir =>
        rw [there] at same
        obtain ⟨l, l_eq, nodup, mem⟩ := same
        cases l_eq
        exact ⟨dir, rfl, nodup, mem⟩
  · cases same

theorem looks_readRoot :
    Looks τ (sys .readRoot) (fun entries => entries.Nodup ∧ ∀ e, e ∈ entries ↔ s.Has e) s := by
  refine Looks.sys on rest .readRoot trivial fun entries t o does => ?_
  rcases does with ⟨_, l, same, nodup, mem⟩ | ⟨_, _, _, same⟩
  · cases same
    refine ⟨nodup, fun e => (mem e).trans ?_⟩
    cases e with
    | directory d => simp only [Machine.Has, o.dirs]
    | reservation id => simp only [Machine.Has, o.reservations]
  · cases same

/-- A hash is of the bytes that are there. -/
theorem looks_hashFile (x : Externals) (d : Directory) (f : FileName) :
    Looks τ (hashFile x d f)
      (fun observed => ∃ file, s.file d f = some file ∧ hashOf x file.bytes = observed) s := by
  refine (looks_read on rest d f).bind fun bytes t rest _ found => ?_
  obtain ⟨file, there, rfl⟩ := found
  exact Looks.returns rest ⟨file, there, rfl⟩

/-- An identity is that of a whole generation. -/
theorem looks_identityAt (x : Externals) (id : Id) :
    Looks τ (identityAt x id)
      (fun identity => ∃ dir, s.dirs (.generation id) = some dir ∧
        (∃ file, dir .manifest = some file ∧ x.fromSlice file.bytes = some identity ∧
          file.bytes.length ≤ manifestLimit) ∧ identity.schema = 1 ∧ identity.id x = id ∧
        ∀ f, (dir f).isSome ↔ f ∈ [FileName.program identity.role, .manifest, .lease]) s := by
  refine (looks_readBounded on rest _ _ _).bind fun bytes t₁ rest₁ o₁ found => ?_
  obtain ⟨⟨file, there, rfl⟩, small⟩ := found
  refine (looks_parse rest₁ x _).bind fun identity t₂ rest₂ o₂ parsed => ?_
  refine (Looks.require rest₂ _).bind fun _ t₃ rest₃ o₃ same => ?_
  refine (looks_readDir on rest₃ _).bind fun files t₄ rest₄ o₄ listed => ?_
  refine (Looks.require rest₄ _).bind fun _ t₅ rest₅ o₅ allowed => ?_
  refine (Looks.require rest₅ _).bind fun _ t₆ rest₆ o₆ three => Looks.returns rest₆ ?_
  obtain ⟨dir, at_, nodup, mem⟩ := listed
  have unchanged : s.dirs = t₃.dirs := ((o₁.trans o₂).trans o₃).dirs.symm
  simp only [Bool.and_eq_true, beq_iff_eq] at same
  refine ⟨dir, unchanged ▸ at_, ⟨file, ?_, parsed, small⟩, same.1.1, same.2, fun f => ?_⟩
  · rw [← unchanged] at at_
    simpa [Machine.file, at_] using there
  · rw [← mem f]
    refine all_listed nodup (fun f mem => ?_) (by simpa using three) f
    have := List.all_eq_true.1 allowed f mem
    simpa using this

/-- What a collection spares covers index and reservations. -/
theorem looks_protectedOf (index : Index) :
    Looks τ (protectedOf index)
      (fun ids => ∀ id, index.Names id ∨ s.Reserved id → id ∈ ids) s := by
  refine (looks_readRoot on rest).bind fun entries t rest' o listed => ?_
  -- what is still to come in the listing, or already found
  have loop : (entries.foldlM protectEntry (0, index.protectedIds)).Holds τ
      (fun r u => t.Others u ∧ ∀ found : Nat × List Id, r = .ok found →
        ∀ id, index.Names id ∨ s.Reserved id → id ∈ found.2) t := by
    refine Holds.foldlM (I := fun entries (found : Nat × List Id) u => t.Others u ∧
      (∀ id, index.Names id → id ∈ found.2) ∧
      ∀ id, s.Reserved id → Entry.reservation id ∈ entries ∨ id ∈ found.2) ?_ ?_ rest' ?_
    · rintro (d | id) rest_ found u sound ⟨ou, named, reserved⟩
      · refine ⟨sound, ou, named, fun id r => ?_⟩
        rcases reserved id r with mem | mem
        · exact .inl ((List.mem_cons.1 mem).resolve_left nofun)
        · exact .inr mem
      · have fails : ∀ e v, τ.rest v → u.Others v →
            t.Others v ∧ ∀ found : Nat × List Id, (Except.error e : Except Fault _) = .ok found →
              ∀ id, index.Names id ∨ s.Reserved id → id ∈ found.2 :=
          fun e v _ ov => ⟨ou.trans ov, nofun⟩
        refine (Looks.require sound _).andThen (fun _ v sv ov _ => ?_) fails
        have look : Looks τ (sys (.readReservation id)) (fun _ => True) v :=
          Looks.sys on sv (.readReservation id) trivial fun _ _ _ _ => trivial
        refine look.andThen (fun bytes w sw ow _ => ?_) fun e w sw ow => fails e w sw (ov.trans ow)
        refine (Looks.require sw _).andThen (fun _ y sy oy _ => ?_)
          fun e y sy oy => fails e y sy ((ov.trans ow).trans oy)
        refine ⟨sy, ou.trans ((ov.trans ow).trans oy), fun id' names => ?_, fun id' r => ?_⟩
        · exact .tail id (named id' names)
        · rcases reserved id' r with mem | mem
          · rcases List.mem_cons.1 mem with same | mem
            · cases same
              exact .inr (.head _)
            · exact .inl mem
          · exact .inr (.tail id mem)
    · rintro found u sound ⟨ou, named, reserved⟩
      refine ⟨ou, fun found' same => ?_⟩
      cases same
      rintro id (names | r)
      · exact named id names
      · exact (reserved id r).resolve_left nofun
    · refine ⟨.refl t, fun id names => Index.mem_protectedIds.2 names, fun id r => .inl ?_⟩
      exact (listed.2 _).2 r
  exact Looks.bind (Q := fun found : Nat × List Id => ∀ id, index.Names id ∨ s.Reserved id →
    id ∈ found.2) loop fun found u sound _ all => Looks.returns sound all

/-- The index that is read is the one in force. -/
theorem looks_index :
    Looks τ index
      (fun index => index.wellFormed = true ∧ ∀ id, s.Indexed id ↔ index.Names id) s := by
  have look : Looks τ (sys .readIndex) (fun index => s.index = some index) s := by
    refine Looks.sys on rest .readIndex trivial fun index t o does => ?_
    rcases does with ⟨_, same⟩ | ⟨_, _, _, same⟩
    · rw [o.index] at same
      cases there : s.index with
      | none => rw [there] at same; cases same
      | some found =>
          rw [there] at same
          cases same
          rfl
    · cases same
  have missing : (sys .readIndex).Holds τ
      (fun r t => s.Others t ∧ (r = .error .notFound → s.index = none)) s := by
    refine on.look rest .readIndex trivial fun r t o _ does => ⟨o, fun gone => ?_⟩
    subst gone
    rcases does with ⟨_, same⟩ | ⟨_, _, _, same⟩
    · rw [o.index] at same
      cases there : s.index with
      | none => rfl
      | some found => rw [there] at same; cases same
    · cases same
  refine Holds.attempt ((Holds.and look missing).mono fun r t sound now => ?_)
  obtain ⟨⟨o, found⟩, _, gone⟩ := now
  match r with
  | .ok index =>
      refine (Looks.require (s := t) sound _).andThen (fun _ u su ou formed => ?_)
        fun e u _ ou => ⟨o.trans ou, nofun⟩
      refine ⟨su, o.trans ou, fun index' same => ?_⟩
      cases same
      refine ⟨formed, fun id => ⟨?_, fun names => ⟨index, found index rfl, names⟩⟩⟩
      rintro ⟨index', at_, names⟩
      rw [found index rfl] at at_
      cases at_
      exact names
  | .error .notFound =>
      refine ⟨sound, o, fun index' same => ?_⟩
      cases same
      refine ⟨rfl, fun id => ⟨?_, ?_⟩⟩
      · rintro ⟨index', at_, _⟩
        rw [gone rfl] at at_
        cases at_
      · rintro ⟨role, mem⟩
        cases mem
  | .error .alreadyExists | .error (.other text) => exact ⟨sound, o, nofun⟩

end Looking

section Programs

variable (x : Externals) (d : Directory)

theorem reads_aside (c : Call) (h : c.Reads) : c.Aside := by
  cases c <;> trivial

theorem readBounded_reads (f : FileName) (limit : Nat) : (readBounded d f limit).Calls Call.Reads :=
  Calls.bind ((calls_sys _).2 trivial) fun _ => Calls.bind (calls_require _ _) fun _ => trivial

theorem parse_reads (bytes : Bytes) : (parse x bytes).Calls Call.Reads := by
  unfold parse
  split <;> trivial

theorem hashFile_reads (f : FileName) : (hashFile x d f).Calls Call.Reads :=
  Calls.bind ((calls_sys _).2 trivial) fun _ => trivial

theorem checkFiles_reads (allowed : List FileName) : (checkFiles d allowed).Calls Call.Reads :=
  Calls.bind ((calls_sys _).2 trivial) fun _ => calls_require _ _

theorem publicationMetadata_reads : (publicationMetadata d).Calls Call.Reads := by
  refine Calls.attempt (readBounded_reads d _ _) fun r => ?_
  split
  · trivial
  · exact readBounded_reads d _ _
  · trivial

/-- Checking a program only looks. -/
theorem checkProgram_reads (identity : Identity) : (checkProgram x d identity).Calls Call.Reads := by
  refine Calls.attempt (hashFile_reads x d _) fun r => ?_
  split
  · trivial
  · trivial
  · exact calls_require _ _

theorem checkVacant_reads : (checkVacant d).Calls Call.Reads := by
  refine Calls.attempt ((calls_sys _).2 trivial) fun r => ?_
  split
  · trivial
  · trivial
  · exact calls_require _ _

variable {d} (aside : d.Aside)
include aside

theorem removeIfThere_aside (f : FileName) : (removeIfThere d f).Calls Call.Aside := by
  refine Calls.attempt ((calls_sys _).2 aside) fun r => ?_
  split <;> trivial

theorem removeFiles_aside (files : List FileName) :
    (files.forM fun f => sys (.removeFile d f)).Calls Call.Aside :=
  Calls.forM fun _ _ => (calls_sys _).2 aside

/-- Cleaning up a staging directory leaves generations alone. -/
theorem cleanupStaging_aside : (cleanupStaging x d).Calls Call.Aside := by
  refine Calls.bind ((calls_sys _).2 trivial) fun files => ?_
  split
  · exact (calls_sys _).2 aside
  · refine Calls.bind ((publicationMetadata_reads d).mono reads_aside) fun bytes => ?_
    refine Calls.bind ((parse_reads x bytes).mono reads_aside) fun identity => ?_
    refine Calls.bind (calls_require _ _) fun _ => ?_
    refine Calls.bind ((checkFiles_reads d _).mono reads_aside) fun _ => ?_
    refine Calls.bind ((calls_sys _).2 trivial) fun files => ?_
    refine Calls.bind (removeFiles_aside aside _) fun _ => ?_
    refine Calls.bind (removeIfThere_aside aside _) fun _ => ?_
    exact (calls_sys _).2 aside

/-- So does finishing a collection. -/
theorem finishCollection_aside (id : Id) : (finishCollection x d id).Calls Call.Aside := by
  refine Calls.bind ((calls_sys _).2 trivial) fun files => ?_
  split
  · exact (calls_sys _).2 aside
  · refine Calls.bind ((readBounded_reads d _ _).mono reads_aside) fun bytes => ?_
    refine Calls.bind ((parse_reads x bytes).mono reads_aside) fun identity => ?_
    refine Calls.bind (calls_require _ _) fun _ => ?_
    refine Calls.bind ((checkFiles_reads d _).mono reads_aside) fun _ => ?_
    refine Calls.bind ((checkProgram_reads x d identity).mono reads_aside) fun _ => ?_
    refine Calls.bind ((checkVacant_reads d).mono reads_aside) fun _ => ?_
    refine Calls.bind (removeIfThere_aside aside _) fun _ => ?_
    refine Calls.bind (removeIfThere_aside aside _) fun _ => ?_
    refine Calls.bind (removeIfThere_aside aside _) fun _ => ?_
    exact (calls_sys _).2 aside

theorem removeDirAll_aside : (removeDirAll d).Calls Call.Aside := by
  refine Calls.bind ((calls_sys _).2 trivial) fun files => ?_
  refine Calls.bind (removeFiles_aside aside files) fun _ => ?_
  exact (calls_sys _).2 aside

theorem writeNew_aside (f : FileName) (bytes : Bytes) : (writeNew d f bytes).Calls Call.Aside :=
  Calls.bind ((calls_sys _).2 aside) fun _ => (calls_sys _).2 aside

end Programs

section Kept

variable (x : Externals)

/-- One call of an operation leaves every protected generation as it is. -/
def Keeps (s t : Machine) : Prop :=
  ∀ id, s.Protected id → t.dirs (.generation id) = s.dirs (.generation id)

/-- The terms on which operations share the store. Any call may fail for a reason of its own. -/
def terms (p : Pid) : Terms Call Reply Fault Machine where
  does := fun c s r t => s.MayDo (fun _ => True) p c r t
  others := Machine.Others
  own := Keeps
  rest := Sound x
  refl := Machine.Others.refl
  trans := Machine.Others.trans
  keeps := Sound.others

theorem onStore (p : Pid) : OnStore (fun _ => True) p (terms x p) where
  does h := h
  others h := h
  own _ _ _ := rfl

variable {x} {p : Pid} {s t : Machine}

theorem Machine.Beside.keeps (b : s.Beside t) : Keeps s t := fun id _ => b.generations id

variable {id : Id} {ids : List Id}

/-- A complete generation is in the way of a rename. -/
theorem Machine.Complete.not_empty (h : s.Complete x id) :
    s.dirs (.generation id) ≠ none ∧ s.dirs (.generation id) ≠ some Dir.empty := by
  obtain ⟨dir, identity, at_, whole⟩ := h
  obtain ⟨file, there, _⟩ := whole.manifest
  refine ⟨by simp [at_], fun same => ?_⟩
  rw [at_] at same
  cases Option.some.inj same
  cases there

/-- The calls by which a generation is staged and published. -/
def Call.Publishes (c : Call) : Prop :=
  c.Aside ∨ ∃ tail id, c = .rename (.publish tail) (.generation id)

/-- Only directories of a generation that nothing protects come and go. -/
theorem moved_keeps {dirs : Directory → Option Dir} (h : Sound x s) (free : ¬ s.Protected id)
    (same : ∀ id', id' ≠ id → dirs (.generation id') = s.dirs (.generation id')) :
    Keeps s { s with dirs := dirs } ∧ Sound x { s with dirs := dirs } := by
  refine ⟨fun id' prot => same id' fun eq => free (eq ▸ prot), fun id' prot => ?_, fun lease mem => ?_, h.index⟩
  · obtain ⟨dir', identity, at', whole⟩ := h.complete id' prot
    exact ⟨dir', identity, (same id' fun eq => free (eq ▸ prot)).trans at', whole⟩
  · obtain ⟨id', file, path, there, inode⟩ := h.leases lease mem
    have ne : id' ≠ id := fun eq => free (.inr (.inr ⟨lease, mem, eq ▸ path⟩))
    refine ⟨id', file, path, ?_, inode⟩
    rw [path] at there ⊢
    exact (congrArg (·.bind fun dir => dir .lease) (same id' ne)).trans there

/-- Publishing replaces no generation that is protected. -/
theorem publishes_keeps {c : Call} {r : Except Fault (Reply c)} (kind : c.Publishes)
    (h : Sound x s) (does : s.MayDo (fun _ => True) p c r t) : Keeps s t ∧ Sound x t := by
  rcases kind with aside | ⟨tail, id, rfl⟩
  · have beside := aside_beside aside does
    exact ⟨beside.keeps, h.beside beside⟩
  rcases does with does | ⟨_, rfl, _⟩
  · rcases Machine.does_rename does with ⟨dir, at_, free, _, rfl⟩ | ⟨_, rfl⟩
    · have unprotected : ¬ s.Protected id := by
        intro prot
        have whole := (h.complete id prot).not_empty
        exact free.elim whole.1 whole.2
      exact moved_keeps h unprotected fun id' ne => by simp [Machine.setDir, Function.update, ne]
    · exact ⟨fun _ _ => rfl, h⟩
  · exact ⟨fun _ _ => rfl, h⟩

/-- A program of such calls. -/
theorem publishing_holds {α : Type} {op : Op α} (calls : op.Calls Call.Publishes) (h : Sound x s) :
    op.Holds (terms x p) (fun _ _ => True) s :=
  (Holds.of_calls (τ := terms x p) id Sound.others publishes_keeps calls h).mono
    fun _ _ _ _ => trivial

/-- A run of such calls keeps what is stable. -/
theorem asides_beside {α : Type} {op : Op α} (calls : op.Calls Call.Aside) (h : Sound x s)
    {Inv : Machine → Prop} (stable : ∀ {s t : Machine}, s.Others t → Inv s → Inv t)
    (beside : ∀ {s t : Machine}, s.Beside t → Inv s → Inv t) (inv : Inv s) :
    op.Holds (terms x p) (fun _ t => Inv t) s := by
  have step : ∀ {c : Call} {s t : Machine} {r : Except Fault (Reply c)}, c.Aside →
      Sound x s ∧ Inv s → s.MayDo (fun _ => True) p c r t → Keeps s t ∧ Sound x t ∧ Inv t := by
    intro c s t r kind both does
    have b := aside_beside kind does
    exact ⟨b.keeps, both.1.beside b, beside b both.2⟩
  have stays : ∀ {s t : Machine}, s.Others t → Sound x s ∧ Inv s → Sound x t ∧ Inv t :=
    fun o both => ⟨both.1.others o, stable o both.2⟩
  exact (Holds.of_calls (τ := terms x p) And.left stays step calls ⟨h, inv⟩).mono
    fun _ _ _ now => now.2

/-- Staging makes only such calls. -/
theorem staged_publishes (tail : String) (identity : Identity) (copied : Bytes) :
    (staged x (.publish tail) identity copied).Calls Call.Publishes := by
  have aside : (Directory.publish tail).Aside := trivial
  have aside_publishes : ∀ c : Call, c.Aside → c.Publishes := fun _ h => .inl h
  have reads_publishes : ∀ c : Call, c.Reads → c.Publishes := fun c h => .inl (reads_aside c h)
  refine Calls.bind ((writeNew_aside aside _ _).mono aside_publishes) fun _ => ?_
  refine Calls.bind ((writeNew_aside aside _ _).mono aside_publishes) fun _ => ?_
  refine Calls.bind ((hashFile_reads x _ _).mono reads_publishes) fun _ => ?_
  refine Calls.bind (calls_require _ _) fun _ => ?_
  refine Calls.bind ((writeNew_aside aside _ _).mono aside_publishes) fun _ => ?_
  refine Calls.bind ((writeNew_aside aside _ _).mono aside_publishes) fun _ => ?_
  refine Calls.bind ((calls_sys _).2 (.inl aside)) fun _ => ?_
  exact (calls_sys _).2 (.inr ⟨tail, _, rfl⟩)

/-- The generations a collection was told to leave are all that the index or a reservation names. -/
def Covers (ids : List Id) (s : Machine) : Prop := ∀ id, s.Indexed id ∨ s.Reserved id → id ∈ ids

/-- The names that are spared stay enough while others work. -/
theorem Covers.others (o : s.Others t) (h : Covers ids s) : Covers ids t := by
  intro id named
  refine h id (named.imp ?_ ?_)
  · rintro ⟨index, at_, names⟩
    exact ⟨index, o.index ▸ at_, names⟩
  · unfold Machine.Reserved
    rw [o.reservations]
    exact fun h => h

theorem Covers.beside (b : s.Beside t) (h : Covers ids s) : Covers ids t := by
  unfold Covers Machine.Indexed Machine.Reserved at *
  rw [b.index, b.reservations]
  exact h

/-- A lease file that can be locked is open nowhere. -/
theorem not_occupied {file : File} (h : Sound x s) (there : s.file (.generation id) .lease = some file)
    (vacant : s.vacant file.inode = true) : ¬ s.Occupied id := by
  rintro ⟨lease, mem, path⟩
  obtain ⟨_, file', _, there', inode⟩ := h.leases lease mem
  rw [path, there] at there'
  cases there'
  have := List.all_eq_true.1 vacant lease mem
  simp [inode] at this

/-- A generation found vacant is held by no one. -/
theorem vacant_holds (h : Sound x s) (id : Id) :
    (sys (.vacant (.generation id))).Holds (terms x p)
      (fun r t => s.Others t ∧ (r = .ok true → ¬ t.Occupied id)) s := by
  refine (onStore x p).look h (.vacant (.generation id)) trivial fun r t o sound does =>
    ⟨o, fun yes => ?_⟩
  subst yes
  rcases does with ⟨_, same⟩ | ⟨_, _, _, same⟩
  · cases there : t.file (.generation id) .lease with
    | none => rw [there] at same; cases same
    | some file =>
        rw [there] at same
        exact not_occupied sound there (Except.ok.inj same).symm
  · cases same

/-- A generation that nothing protects is set aside, and no other is touched. -/
theorem rename_keeps {r : Except Fault Unit} (h : Sound x s) (free : ¬ s.Protected id)
    (does : s.MayDo (fun _ => True) p (.rename (.generation id) (.gc id)) r t) :
    Keeps s t ∧ Sound x t ∧ t.index = s.index ∧ t.reservations = s.reservations := by
  rcases does with does | ⟨_, rfl, _⟩
  · rcases Machine.does_rename does with ⟨dir, at_, _, _, rfl⟩ | ⟨_, rfl⟩
    · refine and_assoc.mp ⟨moved_keeps h free fun id' ne => ?_, rfl, rfl⟩
      simp [Machine.setDir, Function.update, ne]
    · exact ⟨fun _ _ => rfl, h, rfl, rfl⟩
  · exact ⟨fun _ _ => rfl, h, rfl, rfl⟩

theorem Covers.same (index : t.index = s.index) (reservations : t.reservations = s.reservations) (h : Covers ids s) :
    Covers ids t := by
  unfold Covers Machine.Indexed Machine.Reserved at *
  rw [index, reservations]
  exact h

/-- Removing a generation that nothing names keeps the invariant. -/
theorem removeGeneration_holds (h : Sound x s) (covers : Covers ids s) (unnamed : id ∉ ids) (free : ¬ s.Occupied id) :
    (removeGeneration x id).Holds (terms x p) (fun _ t => Covers ids t) s := by
  have unprotected : ∀ t : Machine, s.Others t → ¬ t.Protected id := by
    rintro t o (indexed | reserved | occupied)
    · exact unnamed (covers.others o id (.inl indexed))
    · exact unnamed (covers.others o id (.inr reserved))
    · exact free (o.occupied occupied)
  have renamed : (sys (.rename (.generation id) (.gc id))).Holds (terms x p)
      (fun _ t => Covers ids t) s := by
    refine ⟨h, fun s' answer t o does => ?_⟩
    obtain ⟨keeps, sound, index, reservations⟩ :=
      rename_keeps (h.others o) (unprotected s' o) does
    exact ⟨keeps, sound, (covers.others o).same index reservations⟩
  refine Holds.bind renamed (fun _ t sound covers => ?_) fun _ _ _ covers => covers
  exact asides_beside (finishCollection_aside x (d := .gc id) trivial id) sound Covers.others Covers.beside covers

theorem collectVacant_holds (result : Collection) (identity : Identity) (h : Sound x s) (covers : Covers ids s)
    (unnamed : id ∉ ids) (free : ¬ s.Occupied id) : (collectVacant x result id identity).Holds (terms x p)
      (fun r t => Covers ids t ∧ ∃ c, r = .ok c) s := by
  refine (looks_hashFile (onStore x p) h x _ _).attempt fun r t sound o _ => ?_
  cases r with
  | error e => exact ⟨sound, covers.others o, _, rfl⟩
  | ok observed =>
      dsimp only
      split
      · refine Holds.attempt ((removeGeneration_holds sound (covers.others o) unnamed
          fun occupied => free (o.occupied occupied)).mono fun r u sound covers => ?_)
        cases r with
        | ok | error => exact ⟨sound, covers, _, rfl⟩
      · exact ⟨sound, covers.others o, _, rfl⟩

/-- So does a turn of a collection at a generation. -/
theorem collectGeneration_holds (result : Collection) (id : Id) (h : Sound x s) (covers : Covers ids s) :
    (collectGeneration x ids result id).Holds (terms x p)
      (fun r t => Covers ids t ∧ ∃ c, r = .ok c) s := by
  refine (looks_identityAt (onStore x p) h x id).attempt fun r t sound o _ => ?_
  cases r with
  | error e => exact ⟨sound, covers.others o, _, rfl⟩
  | ok identity =>
      dsimp only
      split
      · exact ⟨sound, covers.others o, _, rfl⟩
      · next unnamed =>
        refine Holds.attempt ((vacant_holds sound id).mono fun r u sound' now => ?_)
        obtain ⟨o', vacant⟩ := now
        cases r with
        | error e => exact ⟨sound', covers.others (o.trans o'), _, rfl⟩
        | ok b =>
            cases b with
            | false => exact ⟨sound', covers.others (o.trans o'), _, rfl⟩
            | true =>
                exact collectVacant_holds result identity sound' (covers.others (o.trans o')) unnamed
                  (vacant rfl)

/-- And at any entry of the store. -/
theorem collectEntry_holds (result : Collection) (e : Entry) (h : Sound x s) (covers : Covers ids s) :
    (collectEntry x ids result e).Holds (terms x p) (fun r t => Covers ids t ∧ ∃ c, r = .ok c) s := by
  match e with
  | .directory (.publish tail) =>
      refine Holds.attempt ((asides_beside (cleanupStaging_aside x (d := .publish tail) trivial) h
        Covers.others Covers.beside covers).mono fun r t sound covers => ?_)
      cases r with
      | ok | error => exact ⟨sound, covers, _, rfl⟩
  | .directory (.gc id) =>
      refine Holds.attempt ((asides_beside (finishCollection_aside x (d := .gc id) trivial id) h
        Covers.others Covers.beside covers).mono fun r t sound covers => ?_)
      cases r with
      | ok | error => exact ⟨sound, covers, _, rfl⟩
  | .directory (.generation id) => exact collectGeneration_holds result id h covers
  | .reservation id => exact ⟨h, covers, _, rfl⟩

/-- A collection that is given the index there is. -/
theorem collectLocked_holds {index : Index} (h : Sound x s) (current : ∀ id, s.Indexed id → index.Names id) :
    (collectLocked x index).Holds (terms x p) (fun _ _ => True) s := by
  refine (looks_protectedOf (onStore x p) h index).andThen (fun ids t sound o named => ?_) fun _ _ _ _ => trivial
  refine (looks_readRoot (onStore x p) sound).andThen (fun entries u sound' o' _ => ?_)
    fun _ _ _ _ => trivial
  have covers : Covers ids u := by
    refine Covers.others (o.trans o') fun id which => ?_
    exact named id (which.imp_left (current id))
  refine Holds.foldlM (I := fun _ _ t => Covers ids t) (fun e _ result v sound covers => ?_)
    (fun _ _ _ _ => trivial) sound' covers
  refine (collectEntry_holds result e sound covers).mono fun r w _ now => ?_
  obtain ⟨covers, c, rfl⟩ := now
  exact covers

/-- A generation is held only where it is whole. -/
theorem holdId_holds (h : Sound x s) (id : Id) : (holdId x id).Holds (terms x p) (fun _ _ => True) s := by
  refine (looks_identityAt (onStore x p) h x id).andThen (fun identity t₁ h₁ o₁ found => ?_)
    fun _ _ _ _ => trivial
  refine (looks_hashFile (onStore x p) h₁ x _ _).andThen (fun observed t₂ h₂ o₂ hashed => ?_)
    fun _ _ _ _ => trivial
  refine (Looks.require h₂ _).andThen (fun _ t₃ h₃ o₃ same => ?_) fun _ _ _ _ => trivial
  refine ⟨h₃, fun t₄ answer t₅ o₄ does => ?_⟩
  have h₄ : Sound x t₄ := h₃.others o₄
  have dirs : t₄.dirs = s.dirs := (((o₁.trans o₂).trans o₃).trans o₄).dirs
  obtain ⟨dir, at_, ⟨manifest, isManifest, parsed, _⟩, _, named, files⟩ := found
  have at₄ : t₄.dirs (.generation id) = some dir := dirs ▸ at_
  have whole : t₄.Complete x id := by
    obtain ⟨file, there, hash⟩ := hashed
    refine ⟨dir, identity, at₄, ⟨manifest, isManifest, parsed⟩, named, files, file, ?_, ?_⟩
    · simpa [Machine.file, o₁.dirs, at_] using there
    · rw [hash]
      exact beq_iff_eq.1 same
  rcases does with does | ⟨_, rfl, _⟩
  · rcases Machine.does_take does with ⟨file, there, _, rfl⟩ | ⟨_, rfl⟩
    · refine ⟨fun _ _ => rfl, ⟨?_, ?_, h₄.index⟩, trivial⟩
      · rintro id' (indexed | reserved | ⟨lease, mem, path⟩)
        · exact h₄.complete id' (.inl indexed)
        · exact h₄.complete id' (.inr (.inl reserved))
        · rcases List.mem_cons.1 mem with rfl | mem
          · cases path
            exact whole
          · exact h₄.complete id' (.inr (.inr ⟨lease, mem, path⟩))
      · intro lease mem
        rcases List.mem_cons.1 mem with rfl | mem
        · exact ⟨id, file, rfl, there, rfl⟩
        · exact h₄.leases lease mem
    · exact ⟨fun _ _ => rfl, h₄, trivial⟩
  · exact ⟨fun _ _ => rfl, h₄, trivial⟩

/-- A publication keeps the invariant. -/
theorem publishNew_holds {r : Publication} {index : Index} (h : Sound x s)
    (current : ∀ id, s.Indexed id → index.Names id) :
    (publishNew x r index).Holds (terms x p) (fun _ _ => True) s := by
  refine Holds.bind (collectLocked_holds h current) (fun _ t sound _ => ?_) fun _ _ _ _ => trivial
  refine publishing_holds ?_ sound
  refine Calls.bind (calls_require _ _) fun _ => ?_
  refine Calls.bind ((calls_sys _).2 (.inl trivial)) fun _ => ?_
  refine Calls.attempt (staged_publishes _ _ _) fun result => ?_
  split
  · trivial
  · refine Calls.attempt ((removeDirAll_aside (d := .publish r.random) trivial).mono
      fun _ aside => .inl aside) fun _ => trivial

theorem stageLocked_holds (r : Publication) (h : Sound x s) :
    (stageLocked x r).Holds (terms x p) (fun _ _ => True) s := by
  refine (Looks.require h _).andThen (fun _ t sound o _ => ?_) fun _ _ _ _ => trivial
  refine (looks_index (onStore x p) sound).andThen (fun index u sound' o' found => ?_) fun _ _ _ _ => trivial
  have look : Looks (terms x p) (sys (.present (.generation ((r.identity x).id x)))) (fun _ => True)
      u := Looks.sys (onStore x p) sound' (.present _) trivial fun _ _ _ _ => trivial
  refine look.andThen (fun published v sound'' o'' _ => ?_) fun _ _ _ _ => trivial
  split
  · exact holdId_holds sound'' _
  · have current : ∀ id, v.Indexed id → index.Names id := by
      rintro id ⟨i, at_, names⟩
      exact (found.2 id).1 ⟨i, by rw [← (o'.trans o'').index]; exact at_, names⟩
    refine Holds.bind (publishNew_holds sound'' current) (fun _ w sound _ => holdId_holds sound _)
      fun _ _ _ _ => trivial

theorem Machine.Others.complete (o : s.Others t) (h : s.Complete x id) : t.Complete x id := by
  obtain ⟨dir, identity, at_, whole⟩ := h
  exact ⟨dir, identity, by rw [o.dirs]; exact at_, whole⟩

/-- The index is written only with generations that are there. -/
theorem renameIndex_keeps {index : Index} {r : Except Fault Unit} (h : Sound x s)
    (whole : ∀ id, index.Names id → s.Complete x id) (formed : index.wellFormed = true)
    (does : s.MayDo (fun _ => True) p (.renameIndex index) r t) :
    Keeps s t ∧ Sound x t ∧ (r = .ok () → t.index = some index) := by
  rcases does with ⟨_, rfl⟩ | ⟨_, rfl, _, rfl⟩
  · refine ⟨fun _ _ => rfl, ⟨?_, h.leases, ?_⟩, fun _ => rfl⟩
    · rintro id (⟨i, at_, names⟩ | reserved | occupied)
      · cases at_
        exact whole id names
      · exact h.complete id (.inr (.inl reserved))
      · exact h.complete id (.inr (.inr occupied))
    · intro i at_
      cases at_
      exact formed
  · exact ⟨fun _ _ => rfl, h, nofun⟩

/-- So does selecting a held image. -/
theorem select_holds {image : Image} (h : Sound x s) (held : (p, image) ∈ s.leases) :
    (select x image).Holds (terms x p) (fun _ _ => True) s := by
  refine (Looks.require h _).andThen (fun _ t sound o path => ?_) fun _ _ _ _ => trivial
  have here : s.Complete x (image.identity.id x) :=
    h.complete _ (.inr (.inr ⟨(p, image), held, beq_iff_eq.1 path⟩))
  refine (looks_index (onStore x p) sound).andThen (fun index u sound' o' found => ?_) fun _ _ _ _ => trivial
  have renamed : (sys (.renameIndex (index.retain image.identity.role (image.identity.id x)))).Holds
      (terms x p) (fun r t => r = .ok () →
        t.index = some (index.retain image.identity.role (image.identity.id x))) u := by
    refine ⟨sound', fun v answer w o'' does => ?_⟩
    refine renameIndex_keeps (sound'.others o'') (fun id names => ?_) ?_ does
    · rcases Index.names_retain names with rfl | names
      · exact ((o.trans o').trans o'').complete here
      · have indexed := (found.2 id).2 names
        exact (o'.trans o'').complete (sound.complete id (.inl indexed))
    · exact Index.wellFormed_iff.2
        (Index.retain_length _ _ (Index.wellFormed_iff.1 found.1))
  refine Holds.bind renamed (fun _ v sound now => ?_) fun _ _ _ _ => trivial
  have current : ∀ id, v.Indexed id →
      (index.retain image.identity.role (image.identity.id x)).Names id := by
    rintro id ⟨i, at_, names⟩
    rw [now rfl] at at_
    cases at_
    exact names
  exact Holds.bind (collectLocked_holds sound current) (fun _ w sound _ => ⟨sound, trivial⟩)
    fun _ _ _ _ => trivial

/-- So does reserving it. -/
theorem reserve_holds {image : Image} (h : Sound x s) (held : (p, image) ∈ s.leases) :
    (reserve x image).Holds (terms x p) (fun _ _ => True) s := by
  refine (Looks.require h _).andThen (fun _ t sound o path => ?_) fun _ _ _ _ => trivial
  have here : s.Complete x (image.identity.id x) :=
    h.complete _ (.inr (.inr ⟨(p, image), held, beq_iff_eq.1 path⟩))
  have persisted : (sys (.persistReservation (image.identity.id x) reservationMark)).Holds
      (terms x p) (fun _ _ => True) t := by
    refine ⟨sound, fun u answer v o' does => ?_⟩
    have sound' : Sound x u := sound.others o'
    rcases does with does | ⟨_, rfl, _⟩
    · rcases Machine.does_persistReservation does with ⟨_, rfl⟩ | ⟨_, rfl⟩
      · refine ⟨fun _ _ => rfl, ⟨?_, sound'.leases, sound'.index⟩, trivial⟩
        rintro id (indexed | reserved | occupied)
        · exact sound'.complete id (.inl indexed)
        · by_cases same : id = image.identity.id x
          · subst same
            exact (o.trans o').complete here
          · refine sound'.complete id (.inr (.inl ?_))
            simpa [Machine.Reserved, Function.update, same] using reserved
        · exact sound'.complete id (.inr (.inr occupied))
      · exact ⟨fun _ _ => rfl, sound', trivial⟩
    · exact ⟨fun _ _ => rfl, sound', trivial⟩
  refine Holds.attempt (persisted.mono fun r u sound _ => ?_)
  split
  · refine publishing_holds (Calls.bind (((calls_sys _).2 ?_)) fun _ => calls_require _ _) sound
    exact .inl trivial
  · exact ⟨sound, trivial⟩

/-- So does giving up a reservation. -/
theorem releaseReservation_holds (id : String) (h : Sound x s) :
    (releaseReservation id).Holds (terms x p) (fun _ _ => True) s := by
  unfold releaseReservation
  split
  · next valid =>
    have look : Looks (terms x p) (sys (.readReservation ⟨id, valid⟩)) (fun _ => True) s :=
      Looks.sys (onStore x p) h (.readReservation _) trivial fun _ _ _ _ => trivial
    refine look.attempt fun r t sound o _ => ?_
    split
    · refine (Looks.require sound _).andThen (fun _ u sound' _ _ => ?_) fun _ _ _ _ => trivial
      refine ⟨sound', fun v answer w o' does => ?_⟩
      have sound'' : Sound x v := Sound.others o' sound'
      rcases does with does | ⟨_, rfl, _⟩
      · rcases Machine.does_removeReservation does with ⟨_, rfl⟩ | ⟨_, rfl⟩
        · refine ⟨fun _ _ => rfl, ⟨?_, sound''.leases, sound''.index⟩, trivial⟩
          rintro id' (indexed | reserved | occupied)
          · exact sound''.complete id' (.inl indexed)
          · by_cases same : id' = ⟨id, valid⟩
            · simp [Machine.Reserved, Function.update, same] at reserved
            · refine sound''.complete id' (.inr (.inl ?_))
              simpa [Machine.Reserved, Function.update, same] using reserved
          · exact sound''.complete id' (.inr (.inr occupied))
        · exact ⟨fun _ _ => rfl, sound'', trivial⟩
      · exact ⟨fun _ _ => rfl, sound'', trivial⟩
    · exact ⟨sound, trivial⟩
    · exact ⟨sound, trivial⟩
  · exact ⟨h, trivial⟩

/-- So does a whole collection. -/
theorem collect_holds (h : Sound x s) : (collect x).Holds (terms x p) (fun _ _ => True) s := by
  refine (looks_index (onStore x p) h).andThen (fun index t sound o found => ?_)
    fun _ _ _ _ => trivial
  refine collectLocked_holds sound fun id indexed => (found.2 id).1 ?_
  obtain ⟨i, at_, names⟩ := indexed
  exact ⟨i, o.index ▸ at_, names⟩

end Kept

/-- What a process may ask of the store. `check` of a staged generation runs after the catalog is
released, on the image it holds. -/
inductive Request where
  | stage (r : Publication)
  | select (image : Image)
  | reserve (image : Image)
  | release (id : String)
  | hold (id : String)
  | collect

/-- Run for its effects. -/
def done {α : Type} (op : Op α) : Op Unit := op >>= fun _ => pure ()

/-- The operation, which runs under the catalog lock from its first call to its last. -/
def Request.op (x : Externals) : Request → Op Unit
  | .stage r => done (stageLocked x r)
  | .select image => Runtime.select x image
  | .reserve image => Runtime.reserve x image
  | .release id => releaseReservation id
  | .hold id => done (holdLocked x id)
  | .collect => done (Runtime.collect x)

/-- An operation on an image borrows it from a process that holds it. -/
def Request.Permitted (p : Pid) (s : Machine) : Request → Prop
  | .select image | .reserve image => (p, image) ∈ s.leases
  | _ => True

/-- Every request keeps the invariant. -/
theorem Request.holds (x : Externals) {p : Pid} {s : Machine} (request : Request)
    (permitted : request.Permitted p s) (h : Sound x s) :
    (request.op x).Holds (terms x p) (fun _ _ => True) s := by
  have runs : ∀ {α : Type} {op : Op α}, op.Holds (terms x p) (fun _ _ => True) s →
      (done op).Holds (terms x p) (fun _ _ => True) s := fun holds =>
    Holds.bind holds (fun _ _ sound _ => ⟨sound, trivial⟩) fun _ _ _ _ => trivial
  cases request with
  | stage r => exact runs (stageLocked_holds r h)
  | select image => exact select_holds h permitted
  | reserve image => exact reserve_holds h permitted
  | release id => exact releaseReservation_holds id h
  | hold id =>
      refine runs ?_
      unfold holdLocked
      split
      · exact holdId_holds h _
      · exact ⟨h, trivial⟩
  | collect => exact runs (collect_holds h)

/-- The processes that share a store: its files and leases, and who holds the catalog lock with what is
left to do under it. -/
structure World where
  machine : Machine
  catalog : Option (Pid × Op Unit)

namespace World

def init : World := ⟨.init, none⟩

/-- A process that ends lets go of the lease files it has open. -/
def exits (p : Pid) (s : Machine) : Machine :=
  { s with leases := s.leases.filter fun lease => lease.1 != p }

/-- One step of any of the processes. -/
inductive Step (x : Externals) (F : Call → Prop) : World → World → Prop where
  | start {w : World} {p : Pid} (request : Request) (free : w.catalog = none)
      (permitted : request.Permitted p w.machine) :
      Step x F w { w with catalog := some (p, request.op x) }
  | call {w : World} {p : Pid} {c : Call} {next : Except Fault (Reply c) → Op Unit}
      {answer : Except Fault (Reply c)} {t : Machine} (holder : w.catalog = some (p, .call c next))
      (does : w.machine.MayDo F p c answer t) : Step x F w ⟨t, some (p, next answer)⟩
  | finish {w : World} {p : Pid} {r : Except Fault Unit} (holder : w.catalog = some (p, .ended r)) :
      Step x F w { w with catalog := none }
  | others {w : World} {t : Machine} (others : w.machine.Others t) :
      Step x F w { w with machine := t }
  | kill {w : World} (p : Pid) :
      Step x F w ⟨exits p w.machine, w.catalog.filter fun holder => holder.1 != p⟩

/-- Any number of steps. -/
def Reaches (x : Externals) (F : Call → Prop) : World → World → Prop :=
  Relation.ReflTransGen (Step x F)

/-- The store is sound, and whoever holds the catalog keeps it so to the end. -/
structure Kept (x : Externals) (w : World) : Prop where
  sound : Sound x w.machine
  holder : ∀ p op, w.catalog = some (p, op) → op.Holds (terms x p) (fun _ _ => True) w.machine

/-- A process that ends gives up its leases and no more. -/
theorem exits_others (p : Pid) (s : Machine) : s.Others (exits p s) :=
  ⟨_, rfl, fun l mem => ⟨l, (List.mem_filter.1 mem).1, rfl⟩⟩

theorem Kept.others {x : Externals} {w : World} {t : Machine} (h : w.Kept x)
    (o : w.machine.Others t) : (World.mk t w.catalog).Kept x where
  sound := h.sound.others o
  holder p op at_ := (h.holder p op at_).others (fun _ _ _ _ _ => trivial) o

/-- Every step keeps the store sound and touches no protected generation. -/
theorem Kept.step {x : Externals} {w w' : World} (h : w.Kept x)
    (step : Step x (fun _ => True) w w') : w'.Kept x ∧ Keeps w.machine w'.machine := by
  cases step with
  | start request free permitted =>
      refine ⟨⟨h.sound, fun q op at_ => ?_⟩, fun _ _ => rfl⟩
      cases at_
      exact request.holds x permitted h.sound
  | call holder does =>
      obtain ⟨keeps, after⟩ := (h.holder _ _ holder).2 _ _ _ (.refl _) does
      refine ⟨⟨after.rest, fun q op at_ => ?_⟩, keeps⟩
      cases at_
      exact after
  | finish holder => exact ⟨⟨h.sound, nofun⟩, fun _ _ => rfl⟩
  | others o => exact ⟨h.others o, fun id _ => by rw [o.dirs]⟩
  | kill p =>
      have kept := h.others (exits_others p w.machine)
      refine ⟨⟨kept.sound, fun q op at_ => ?_⟩, fun id _ => by rw [(exits_others p w.machine).dirs]⟩
      exact kept.holder q op ((Option.filter_eq_some_iff.1 at_).1)

/-- With more faults allowed a step is still a step. -/
theorem Step.mono {x : Externals} {F F' : Call → Prop} {w w' : World} (more : ∀ c, F c → F' c)
    (step : Step x F w w') : Step x F' w w' := by
  cases step with
  | start request free permitted => exact .start request free permitted
  | call holder does => exact .call holder (does.imp_right fun fault => ⟨more _ fault.1, fault.2⟩)
  | finish holder => exact .finish holder
  | others o => exact .others o
  | kill p => exact .kill p

theorem Kept.init (x : Externals) : World.init.Kept x where
  sound :=
    { complete := by rintro id (⟨_, at_, _⟩ | reserved | ⟨_, mem, _⟩) <;> contradiction
      leases := nofun
      index := nofun }
  holder := nofun

/-- In every state reached the catalogue's generations are kept. -/
theorem Kept.reached {x : Externals} {w : World} (run : Reaches x (fun _ => True) World.init w) : w.Kept x := by
  induction run with
  | refl => exact .init x
  | tail _ step ih => exact (ih.step step).1

end World

/-- Whatever the processes do and wherever they are killed: a generation that the index names, that is
reserved or that a lease occupies is whole, no step renames it away or removes a file of it, and the index
names at most two generations a role. -/
theorem protected_generations_stay (x : Externals) {w : World} (run : World.Reaches x (fun _ => True) .init w) :
    (∀ id, w.machine.Protected id → w.machine.Complete x id) ∧
      (∀ w', World.Step x (fun _ => True) w w' → ∀ id, w.machine.Protected id →
          w'.machine.dirs (.generation id) = w.machine.dirs (.generation id)) ∧
      ∀ index, w.machine.index = some index → ∀ role, (index.roles role).length ≤ 2 := by
  have kept := World.Kept.reached run
  refine ⟨kept.sound.complete, fun _ step => (kept.step step).2, fun index at_ => ?_⟩
  exact Index.wellFormed_iff.1 (kept.sound.index index at_)

def plainIdentity : Identity :=
  ⟨1, .cli, "1", "linux", ⟨1, "", "", 1, 1, 1⟩, String.ofList (List.replicate 64 '0'), 0, []⟩

/-- A store where every hash is the same and one manifest is short enough to be published. -/
def plain : Externals where
  blake3 := fun _ => ⟨String.ofList (List.replicate 64 '0'), by decide⟩
  toVec := fun identity => if identity = plainIdentity then [1] else List.replicate (manifestLimit + 1) 0
  fromSlice := fun bytes => if bytes = [1] then some plainIdentity else none
  platform := "linux"

def firstPublication : Publication :=
  ⟨.cli, "1", ⟨1, "", "", 1, 1, 1⟩, [], [], [], "a", true⟩

/-- One step first, then the rest of a run to a world of some kind. -/
theorem World.Step.first {x : Externals} {F : Call → Prop} {P : World → Prop} {w v : World}
    (step : World.Step x F w v) (rest : ∃ u, World.Reaches x F v u ∧ P u) :
    ∃ u, World.Reaches x F w u ∧ P u := by
  obtain ⟨u, run, holds⟩ := rest
  exact ⟨u, .head step run, holds⟩

/-- A publication, call by call, to the lease it ends with. -/
theorem first_publication : ∃ w, World.Reaches plain (fun _ => True) .init w ∧
    w.machine.Occupied (plain.blake3 []) := by
  have none_yet : ∀ e, e ∈ ([] : List Entry) ↔ Machine.init.Has e := by
    intro e
    cases e <;> simp [Machine.Has, Machine.init]
  refine (World.Step.start (p := 1) (.stage firstPublication) rfl trivial).first ?_
  -- the index, the destination, and an empty collection
  refine World.Step.first (.call rfl (.inl ⟨rfl, rfl⟩)) ?_
  refine World.Step.first (.call rfl (.inl ⟨rfl, rfl⟩)) ?_
  refine World.Step.first (.call rfl (.inl ⟨rfl, [], rfl, List.nodup_nil, none_yet⟩)) ?_
  refine World.Step.first (.call rfl (.inl ⟨rfl, [], rfl, List.nodup_nil, none_yet⟩)) ?_
  -- the staging directory with its transaction, program, manifest and lease
  refine World.Step.first (.call rfl (.inl ⟨rfl, rfl⟩)) ?_
  refine World.Step.first (.call rfl (.inl ⟨rfl, rfl⟩)) ?_
  refine World.Step.first (.call rfl (.inl ⟨rfl, rfl⟩)) ?_
  refine World.Step.first (.call rfl (.inl ⟨rfl, rfl⟩)) ?_
  refine World.Step.first (.call rfl (.inl ⟨rfl, rfl⟩)) ?_
  refine World.Step.first (.call rfl (.inl ⟨rfl, rfl⟩)) ?_
  refine World.Step.first (.call rfl (.inl ⟨rfl, rfl⟩)) ?_
  refine World.Step.first (.call rfl (.inl ⟨rfl, rfl⟩)) ?_
  refine World.Step.first (.call rfl (.inl ⟨rfl, rfl⟩)) ?_
  refine World.Step.first (.call rfl (.inl ⟨rfl, rfl⟩)) ?_
  refine World.Step.first (.call rfl (.inl ⟨rfl, rfl⟩)) ?_
  refine World.Step.first (.call rfl (.inl (.inl ⟨.inl rfl, rfl, rfl⟩))) ?_
  -- the published generation is read back and its lease taken
  refine World.Step.first (.call rfl (.inl ⟨rfl, rfl⟩)) ?_
  refine World.Step.first (.call rfl (.inl ⟨rfl, [.program .cli, .manifest, .lease], rfl, by decide, ?_⟩)) ?_
  · rintro (_ | _ | _ | (_ | _ | _)) <;> decide
  refine World.Step.first (.call rfl (.inl ⟨rfl, rfl⟩)) ?_
  refine World.Step.first (.call rfl (.inl ⟨rfl, rfl⟩)) ?_
  exact ⟨_, .refl, _, .head _, rfl⟩

theorem first_publication_stays : ∃ w : World, w.machine.Occupied (plain.blake3 []) ∧
    w.machine.Complete plain (plain.blake3 []) := by
  obtain ⟨w, run, occupied⟩ := first_publication
  exact ⟨w, occupied, (protected_generations_stay plain run).1 _ (.inr (.inr occupied))⟩

end Khor.Runtime
