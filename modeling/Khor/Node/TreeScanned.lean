/-
Module: Khor.Node.TreeScanned
Purpose: What a scan collects is lawful, however the source changes while it is read; and a source that stays as it is
  and keeps within the limits is listed.
Trusted boundary: as for TreeCopy
Main exports: entriesOf_checked, scan_checked, Calls, Within, scan_still
-/
import Khor.Node.TreeCopy

namespace Khor.Tree

/-! ### Spellings and their parts -/

theorem spell_parts (s : Spelling) : spell (parts s) = s := List.intercalate_splitOn '/'

theorem parts_inj {s t : Spelling} (same : parts s = parts t) : s = t := by
  rw [← spell_parts s, same, spell_parts]

theorem parts_spell {names : List Name} (plain : ∀ n ∈ names, '/' ∉ n) (some : names ≠ []) :
    parts (spell names) = names :=
  List.splitOn_intercalate '/' plain some

variable {path : Spelling} {k : Walk} {α : Type} {s s' : State} {dir : List Name} {source : Source}
  {all : List (List Name)}

/-- What is in front of the last slash spells what is in front of the last part. -/
theorem parts_rsplitOnce {parent : Spelling} {name : Name} (split : rsplitOnce path = some (parent, name)) :
    (parts path).dropLast = parts parent := by
  obtain ⟨rfl, plain⟩ := rsplitOnce_some.mp split
  rw [parts, List.splitOn_append_cons_self, List.splitOn_eq_singleton plain, List.dropLast_concat]
  rfl

/-! ### What was collected -/

/-- What a walk has, with the directories it has still to read. -/
structure Walked (k : Walk) : Prop where
  plain : ∀ e ∈ k.entries, ∃ names, relative e.path = .ok names
  distinct : (k.entries.map fun e => parts e.path).Nodup
  hollow : ∀ e ∈ k.entries, e.dir = true → e.size = 0
  parented : ∀ e ∈ k.entries, (parts e.path).dropLast = [] ∨
    ∃ d ∈ k.entries, parts d.path = (parts e.path).dropLast ∧ d.dir = true
  few : k.entries.length ≤ MAX_ENTRIES
  short : spelled k.entries = k.spelling ∧ k.spelling ≤ MAX_PATH_BYTES
  light : weight k.entries = k.total ∧ k.total ≤ CAP
  apart : k.todo.Nodup
  names : ∀ d ∈ k.todo, ∀ n ∈ d, '/' ∉ n
  listed : ∀ d ∈ k.todo, d = [] ∨ ∃ e ∈ k.entries, parts e.path = d ∧ e.dir = true
  fresh : ∀ d ∈ k.todo, ∀ e ∈ k.entries, (parts e.path).dropLast ≠ d

theorem Walked.lawful (walked : Walked k) : Lawful k.entries where
  plain := walked.plain
  short := walked.short.1 ▸ walked.short.2
  distinct := by
    have := walked.distinct
    rw [show (fun e : Entry => parts e.path) = parts ∘ (·.path) from rfl, ← List.map_map] at this
    exact this.of_map _
  hollow := walked.hollow
  parented e there parent name split := by
    have above := parts_rsplitOnce split
    rcases walked.parented e there with none | ⟨d, there, same, dir⟩
    · exact absurd (above ▸ none) (List.splitOn_ne_nil _ _)
    · exact ⟨d, there, parts_inj (same.trans above), dir⟩
  light := walked.light.1 ▸ walked.light.2

/-- A directory is being read, of which these names are to come. -/
structure Reading (k : Walk) (dir : List Name) (rest : List OsName) : Prop where
  walked : Walked k
  names : ∀ n ∈ dir, '/' ∉ n
  listed : dir = [] ∨ ∃ e ∈ k.entries, parts e.path = dir ∧ e.dir = true
  away : dir ∉ k.todo
  once : rest.Nodup
  plain : ∀ name, OsName.text name ∈ rest → '/' ∉ name
  fresh : ∀ name, OsName.text name ∈ rest → ∀ e ∈ k.entries, parts e.path ≠ dir ++ [name]

/-- An entry that was found under a name, and what the walk is with it. -/
def Walk.with_ (k : Walk) (dir : List Name) (e : Entry) (name : Name) : Walk :=
  { todo := if e.dir then (dir ++ [name]) :: k.todo else k.todo
    entries := k.entries ++ [e]
    total := k.total + e.size
    spelling := k.spelling + bytesOf e.path }

theorem Reading.next {k : Walk} {dir : List Name} {name : Name} {rest : List OsName} {e : Entry}
    (reading : Reading k dir (.text name :: rest)) (path : e.path = spell (dir ++ [name]))
    (plain : ∃ names, relative e.path = .ok names) (hollow : e.dir = true → e.size = 0)
    (few : k.entries.length < MAX_ENTRIES) (short : k.spelling + bytesOf e.path ≤ MAX_PATH_BYTES)
    (light : k.total + e.size ≤ CAP) : Reading (k.with_ dir e name) dir rest := by
  obtain ⟨walked, names, listed, away, once, plains, fresh⟩ := reading
  have plainName : '/' ∉ name := plains name (by simp)
  have key : parts e.path = dir ++ [name] := by
    rw [path]
    refine parts_spell (fun n is => ?_) (by simp)
    rcases List.mem_append.mp is with is | is
    · exact names n is
    · rw [List.mem_singleton.mp is]
      exact plainName
  have above : (parts e.path).dropLast = dir := by rw [key, List.dropLast_concat]
  have new : ∀ d ∈ k.entries, parts d.path ≠ parts e.path := fun d there => key ▸ fresh name (by simp) d there
  have longer : dir ++ [name] ≠ dir := fun same => by simpa using congrArg List.length same
  -- nothing that was found lies in what was found only now
  have under : ∀ d ∈ k.entries, (parts d.path).dropLast ≠ dir ++ [name] := by
    intro d there same
    rcases walked.parented d there with none | ⟨d', there', same', -⟩
    · rw [none] at same
      simp at same
    · exact new d' there' (same'.trans (same.trans key.symm))
  have todo : ∀ d ∈ (k.with_ dir e name).todo, d ∈ k.todo ∨ d = dir ++ [name] ∧ e.dir = true := by
    intro d there
    simp only [Walk.with_] at there
    split at there
    · rename_i isDir
      rcases List.mem_cons.mp there with rfl | there
      · exact .inr ⟨rfl, isDir⟩
      · exact .inl there
    · exact .inl there
  have mem : ∀ {d}, d ∈ (k.with_ dir e name).entries ↔ d ∈ k.entries ∨ d = e := by simp [Walk.with_]
  refine
    { walked :=
        { plain := fun d there => ?_
          distinct := ?_
          hollow := fun d there isDir => ?_
          parented := fun d there => ?_
          few := ?_
          short := ?_
          light := ?_
          apart := ?_
          names := fun d there => ?_
          listed := fun d there => ?_
          fresh := fun d there d' there' => ?_ }
      names := names
      listed := ?_
      away := fun there => ?_
      once := (List.nodup_cons.mp once).2
      plain := fun n there => plains n (.tail _ there)
      fresh := fun n there d there' => ?_ }
  · rcases mem.mp there with there | rfl
    · exact walked.plain d there
    · exact plain
  · rw [Walk.with_, List.map_append, List.nodup_append]
    refine ⟨walked.distinct, by simp, fun a isOld b isNew same => ?_⟩
    obtain ⟨d, there, rfl⟩ := List.mem_map.mp isOld
    rw [List.map_singleton, List.mem_singleton] at isNew
    exact new d there (same.trans isNew)
  · rcases mem.mp there with there | rfl
    · exact walked.hollow d there isDir
    · exact hollow isDir
  · rcases mem.mp there with there | rfl
    · rcases walked.parented d there with none | ⟨p, there, rest⟩
      · exact .inl none
      · exact .inr ⟨p, mem.mpr (.inl there), rest⟩
    · rcases listed with none | ⟨p, there, same, isDir⟩
      · exact .inl (above.trans none)
      · exact .inr ⟨p, mem.mpr (.inl there), same.trans above.symm, isDir⟩
  · simp only [Walk.with_, List.length_append, List.length_singleton]
    omega
  · refine ⟨?_, short⟩
    have := walked.short.1
    simp only [Walk.with_, spelled, List.map_append, List.sum_append, List.map_singleton, List.sum_singleton] at this ⊢
    omega
  · refine ⟨?_, light⟩
    have := walked.light.1
    simp only [Walk.with_, weight, List.map_append, List.sum_append, List.map_singleton, List.sum_singleton] at this ⊢
    omega
  · simp only [Walk.with_]
    split
    · refine List.nodup_cons.mpr ⟨fun there => ?_, walked.apart⟩
      rcases walked.listed _ there with none | ⟨d, there, same, -⟩
      · simp at none
      · exact new d there (same.trans key.symm)
    · exact walked.apart
  · rcases todo d there with there | ⟨rfl, -⟩
    · exact walked.names d there
    · intro n is
      rcases List.mem_append.mp is with is | is
      · exact names n is
      · rw [List.mem_singleton.mp is]
        exact plainName
  · rcases todo d there with there | ⟨rfl, isDir⟩
    · rcases walked.listed d there with none | ⟨d', there', rest⟩
      · exact .inl none
      · exact .inr ⟨d', mem.mpr (.inl there'), rest⟩
    · exact .inr ⟨e, mem.mpr (.inr rfl), key, isDir⟩
  · rcases todo d there with old | ⟨rfl, -⟩
    · rcases mem.mp there' with there' | rfl
      · exact walked.fresh d old d' there'
      · intro same
        exact away (above.symm.trans same ▸ old)
    · rcases mem.mp there' with there' | rfl
      · exact under d' there'
      · intro same
        exact longer (same.symm.trans above)
  · rcases listed with none | ⟨d, there, rest⟩
    · exact .inl none
    · exact .inr ⟨d, mem.mpr (.inl there), rest⟩
  · rcases todo dir there with there | ⟨same, -⟩
    · exact away there
    · exact longer same.symm
  · rcases mem.mp there' with there' | rfl
    · exact fresh n (.tail _ there) d there'
    · intro same
      rw [key] at same
      have : name = n := by simpa using same
      exact (List.nodup_cons.mp once).1 (this ▸ there)

/-! ### The walk -/

variable {w : World}

theorem ask_ok {answer : Source → Option α} {a : α} (ran : ask w answer s = (.ok a, s')) :
    answer (w s.now).source = some a ∧ s' = (tick w s).2 := by
  obtain ⟨m, s₁, called, is⟩ := Work.bind_ok.mp ran
  obtain ⟨m', s₂, ticked, called⟩ := Work.bind_ok.mp called
  cases ticked
  split at called
  · cases called
  · cases called
    cases given : answer (w s.now).source with
    | none =>
        rw [given] at is
        cases is
    | some a' =>
        rw [given] at is
        cases is
        exact ⟨rfl, rfl⟩

/-- What a walk may still come to read. -/
def Walk.left (k : Walk) : Nat := k.todo.length + (MAX_ENTRIES - k.entries.length)

theorem Walk.with_left (few : k.entries.length < MAX_ENTRIES) (dir : List Name) (e : Entry) (name : Name) :
    (k.with_ dir e name).left ≤ k.left := by
  simp only [Walk.left, Walk.with_, List.length_append, List.length_singleton]
  split
  · rw [List.length_cons]
    omega
  · omega

/-- **What a visit makes of a name**: one entry more, whatever stands there by now. -/
theorem Reading.visit {k' : Walk} {name : OsName} {rest : List OsName} (reading : Reading k dir (name :: rest))
    (ran : visit w dir k name s = (.ok k', s')) : Reading k' dir rest ∧ k'.left ≤ k.left := by
  cases name with
  | raw bytes =>
      obtain ⟨_, _, _, ran⟩ := Work.bind_ok.mp ran
      cases ran
  | text name =>
      obtain ⟨_, s₁, _, ran⟩ := Work.bind_ok.mp ran
      obtain ⟨names, s₂, lifted, ran⟩ := Work.bind_ok.mp ran
      obtain ⟨plain, -⟩ := Work.lift_ok.mp lifted
      split at ran
      · cases ran
      rename_i within
      obtain ⟨found, s₃, -, ran⟩ := Work.bind_ok.mp ran
      dsimp only at ran
      split at ran
      · cases ran
      split at ran
      · cases ran
      rename_i light
      rw [not_or, Nat.not_le, Nat.not_lt] at within
      have spelling : min (k.spelling + bytesOf (spell (dir ++ [name]))) (2 ^ 64 - 1)
          = k.spelling + bytesOf (spell (dir ++ [name])) := by
        have := within.2
        unfold MAX_PATH_BYTES at this
        omega
      have total : min (k.total + (entryOf (spell (dir ++ [name])) found).size) (2 ^ 64 - 1)
          = k.total + (entryOf (spell (dir ++ [name])) found).size := by
        unfold CAP at light
        omega
      rw [spelling] at within ran
      rw [total] at light ran
      cases ran
      exact ⟨reading.next (e := entryOf (spell (dir ++ [name])) found) rfl ⟨names, plain⟩
        (fun isDir => if_pos (of_decide_eq_true isDir)) within.1 within.2 (Nat.le_of_not_lt light),
        Walk.with_left within.1 dir (entryOf (spell (dir ++ [name])) found) name⟩

theorem Reading.visitAll : ∀ {rest : List OsName} {k k' : Walk} {dir : List Name} {s s' : State},
    Reading k dir rest → visitAll w dir k rest s = (.ok k', s') → Walked k' ∧ k'.left ≤ k.left
  | [], k, k', dir, s, s', reading, ran => by
      cases ran
      exact ⟨reading.walked, Nat.le_refl _⟩
  | name :: rest, k, k', dir, s, s', reading, ran => by
      obtain ⟨k₁, s₁, first, ran⟩ := Work.bind_ok.mp ran
      obtain ⟨reading, less⟩ := reading.visit first
      obtain ⟨walked, less'⟩ := reading.visitAll ran
      exact ⟨walked, Nat.le_trans less' less⟩

/-- The next directory is taken up. -/
theorem Walked.take {dir : List Name} {todo : List (List Name)} {entries : List Entry} {total spelling : Nat}
    {source : Source} {listed : List OsName} (walked : Walked ⟨dir :: todo, entries, total, spelling⟩)
    (found : source.names dir = some listed) : Reading ⟨todo, entries, total, spelling⟩ dir listed where
  walked :=
    { plain := walked.plain
      distinct := walked.distinct
      hollow := walked.hollow
      parented := walked.parented
      few := walked.few
      short := walked.short
      light := walked.light
      apart := (List.nodup_cons.mp walked.apart).2
      names := fun d there => walked.names d (.tail _ there)
      listed := fun d there => walked.listed d (.tail _ there)
      fresh := fun d there => walked.fresh d (.tail _ there) }
  names := walked.names dir (by simp)
  listed := walked.listed dir (by simp)
  away := (List.nodup_cons.mp walked.apart).1
  once := source.distinct found
  plain name there := source.plain found there
  fresh name there e isEntry same := by
    refine walked.fresh dir (by simp) e isEntry ?_
    rw [same, List.dropLast_concat]

theorem Walked.walk : ∀ {fuel : Nat} {k : Walk} {entries : List Entry} {s s' : State}, Walked k →
    Tree.walk w fuel k s = (.ok entries, s') → ∃ k' : Walk, k'.entries = entries ∧ Walked k'
  | fuel, ⟨[], found, total, spelling⟩, entries, s, s', walked, ran => by
      rw [Tree.walk] at ran
      cases ran
      exact ⟨_, rfl, walked⟩
  | 0, ⟨dir :: todo, found, total, spelling⟩, entries, s, s', walked, ran => by
      rw [Tree.walk] at ran
      cases ran
  | fuel + 1, ⟨dir :: todo, found, total, spelling⟩, entries, s, s', walked, ran => by
      rw [Tree.walk] at ran
      obtain ⟨listed, s₁, asked, read⟩ := Work.bind_ok.mp ran
      obtain ⟨k, s₂, visited, goes⟩ := Work.bind_ok.mp read
      obtain ⟨given, -⟩ := ask_ok asked
      obtain ⟨walked, -⟩ := (walked.take given).visitAll visited
      exact walked.walk goes

theorem Walked.start : Walked ⟨[[]], [], 0, 0⟩ where
  plain := by simp
  distinct := by simp
  hollow := by simp
  parented := by simp
  few := by decide
  short := by decide
  light := by decide
  apart := by simp
  names := by simp
  listed := by simp
  fresh := by simp

/-- **What a walk collects is accepted**, whatever happens to the source meanwhile. -/
theorem entriesOf_checked {entries : List Entry} (ran : entriesOf w s = (.ok entries, s')) :
    checked entries = .ok ⟨sorted entries, weight entries⟩ := by
  obtain ⟨k, rfl, walked⟩ := Walked.start.walk ran
  exact checked_iff.mpr ⟨walked.few, walked.lawful, rfl⟩

theorem scan_checked {m : Manifest} (ran : scan w path s = (.ok (some m), s')) :
    ∃ entries, checked entries = .ok m := by
  unfold scan at ran
  split at ran
  · cases ran
  obtain ⟨root, s₁, -, ran⟩ := Work.bind_ok.mp ran
  obtain ⟨now, s₂, -, ran⟩ := Work.bind_ok.mp ran
  split at ran
  · cases ran
  split at ran
  · cases ran
  obtain ⟨entries, s₃, -, ran⟩ := Work.bind_ok.mp ran
  obtain ⟨m', s₄, lifted, ran⟩ := Work.bind_ok.mp ran
  cases ran
  exact ⟨entries, (Work.lift_ok.mp lifted).1⟩

/-! ### The walk comes to an end -/

theorem call_never : Work.Never .spent (call w) :=
  .bind (fun _ _ is => nomatch is) fun m s s' is => by
    split at is <;> cases is

theorem ask_never (answer : Source → Option α) : Work.Never .spent (ask w answer) :=
  .bind call_never fun m s s' is => by
    cases given : answer m.source with
    | none | some =>
        rw [given] at is
        cases is

theorem relative_never (path : Spelling) : relative path ≠ .error .spent := by
  unfold relative
  split
  · exact fun is => nomatch is
  · split <;> exact fun is => nomatch is

theorem visit_never (dir : List Name) (k : Walk) (name : OsName) : Work.Never .spent (visit w dir k name) := by
  cases name with
  | raw bytes => exact .bind call_never fun _ => .fail (fun is => nomatch is)
  | text name =>
      refine .bind call_never fun _ => .bind (.lift (relative_never _)) fun _ => ?_
      dsimp only
      split
      · exact .fail (fun is => nomatch is)
      refine .bind (ask_never _) fun found => ?_
      split
      · exact .fail (fun is => nomatch is)
      split
      · exact .fail (fun is => nomatch is)
      · exact .pure _

theorem visitAll_never (dir : List Name) : ∀ (k : Walk) (rest : List OsName), Work.Never .spent (visitAll w dir k rest)
  | _, [] => .pure _
  | k, name :: _ => .bind (visit_never dir k name) fun _ => visitAll_never dir _ _

/-- **A walk comes to its end**: a directory that is to be read is an entry, and there are not too many of these. -/
theorem Walked.ends : ∀ {fuel : Nat} {k : Walk} {s s' : State}, Walked k → k.left ≤ fuel →
    Tree.walk w fuel k s ≠ (.error .spent, s')
  | fuel, ⟨[], found, total, spelling⟩, s, s', _, _ => by
      rw [Tree.walk]
      exact fun is => nomatch is
  | 0, ⟨dir :: todo, found, total, spelling⟩, s, s', _, left => by
      simp [Walk.left] at left
  | fuel + 1, ⟨dir :: todo, found, total, spelling⟩, s, s', walked, left => by
      rw [Tree.walk]
      intro is
      rcases Work.bind_error.mp is with is | ⟨listed, s₁, asked, is⟩
      · exact ask_never _ _ _ is
      rcases Work.bind_error.mp is with is | ⟨k, s₂, visited, is⟩
      · exact visitAll_never _ _ _ _ _ is
      obtain ⟨given, -⟩ := ask_ok asked
      obtain ⟨walked, less⟩ := (walked.take given).visitAll visited
      refine walked.ends ?_ is
      simp only [Walk.left, List.length_cons] at left less ⊢
      omega

/-- A job that makes at most so many calls, however it ends. -/
def Calls {α : Type} (n : Nat) (x : Job α) : Prop := Work.Moves (fun s s' => s'.now ≤ s.now + n) x

namespace Calls

variable {α β : Type} {m n : Nat} {x : Job α} {f : α → Job β}

theorem bind (first : Calls m x) (rest : ∀ a, Calls n (f a)) : Calls (m + n) (x >>= f) :=
  .seq (by omega) (by omega) first rest

theorem of_still (still : ∀ s, (x s).2.now = s.now) : Calls n x := fun s =>
  (still s).le.trans (Nat.le_add_right s.now n)

theorem lift {e : Except Refusal α} (rest : ∀ a, Calls n (f a)) : Calls n (Work.lift e >>= f) := by
  have same : Work.Moves (· = ·) (Work.lift e : Job α) := fun _ => rfl
  refine .seq ?_ ?_ same rest
  · rintro s _ rfl
    exact Nat.le_add_right s.now n
  · rintro s _ _ rfl
    exact id

theorem mono (few : Calls m x) (le : m ≤ n) : Calls n x := Work.Moves.mono few (by omega)

end Calls

theorem tick_calls : Calls 1 (tick w) := fun _ => Nat.le_refl _

theorem call_calls : Calls 1 (call w) :=
  .bind (n := 0) tick_calls fun m => .of_still fun s => by split <;> rfl

theorem ask_calls (answer : Source → Option α) : Calls 1 (ask w answer) :=
  .bind (n := 0) call_calls fun m => .of_still fun s => by cases answer m.source <;> rfl

/-- A name costs two calls, and only one where no entry can be added any more. -/
theorem visit_calls (dir : List Name) (k : Walk) (name : OsName) :
    Calls (if k.entries.length < MAX_ENTRIES then 2 else 1) (visit w dir k name) := by
  cases name with
  | raw bytes => exact (call_calls.bind fun _ => .of_still (n := 0) fun _ => rfl).mono (by split <;> decide)
  | text name =>
      by_cases room : k.entries.length < MAX_ENTRIES
      · rw [if_pos room]
        refine call_calls.bind (n := 1) fun _ => .lift fun _ => ?_
        dsimp only
        split
        · exact .of_still fun _ => rfl
        refine (ask_calls _).bind (n := 0) fun found => .of_still fun s => ?_
        split
        · rfl
        · split <;> rfl
      · rw [if_neg room]
        refine call_calls.bind (n := 0) fun _ => .lift fun _ => ?_
        dsimp only
        rw [if_pos (.inl (Nat.le_of_not_lt room))]
        exact .of_still fun _ => rfl

/-- A visit adds one entry, where there is room for it. -/
theorem visit_adds {k' : Walk} {name : OsName} (ran : visit w dir k name s = (.ok k', s')) :
    k.entries.length < MAX_ENTRIES ∧ k'.entries.length = k.entries.length + 1 := by
  cases name with
  | raw bytes =>
      obtain ⟨_, _, _, ran⟩ := Work.bind_ok.mp ran
      cases ran
  | text name =>
      obtain ⟨_, s₁, _, ran⟩ := Work.bind_ok.mp ran
      obtain ⟨names, s₂, -, ran⟩ := Work.bind_ok.mp ran
      split at ran
      · cases ran
      rename_i within
      obtain ⟨found, s₃, -, ran⟩ := Work.bind_ok.mp ran
      dsimp only at ran
      split at ran
      · cases ran
      split at ran
      · cases ran
      cases ran
      exact ⟨Nat.lt_of_not_le fun full => within (.inl full), List.length_append⟩

/-- Two calls for each entry that is added, and one more for a name that there is no room for. -/
theorem visitAll_calls (dir : List Name) : ∀ (k : Walk) (names : List OsName) (s : State),
    k.entries.length ≤ MAX_ENTRIES →
    (visitAll w dir k names s).2.now + 2 * k.entries.length ≤ s.now + 2 * MAX_ENTRIES + 1 ∧
      ∀ k' s', visitAll w dir k names s = (.ok k', s') →
        k'.entries.length ≤ MAX_ENTRIES ∧ s'.now + 2 * k.entries.length ≤ s.now + 2 * k'.entries.length
  | k, [], s, few => by
      refine ⟨by change s.now + _ ≤ _; omega, fun k' s' ran => ?_⟩
      cases ran
      exact ⟨few, Nat.le_refl _⟩
  | k, name :: rest, s, few => by
      rw [visitAll]
      match ran : visit w dir k name s with
      | (.error e, s₁) =>
          have took := (visit_calls dir k name).of_run ran
          rw [Work.bind_error.mpr (.inl ran)]
          refine ⟨?_, fun _ _ is => nomatch is⟩
          dsimp only
          split at took <;> omega
      | (.ok k₁, s₁) =>
          have took := (visit_calls dir k name).of_run ran
          obtain ⟨room, added⟩ := visit_adds ran
          rw [if_pos room] at took
          obtain ⟨all, given⟩ := visitAll_calls dir k₁ rest s₁ (by omega)
          rw [Work.bind_run ran]
          refine ⟨by omega, fun k' s' ran => ?_⟩
          obtain ⟨few', less⟩ := given k' s' ran
          exact ⟨few', by omega⟩

/-- One call more for each directory. -/
theorem Walked.calls : ∀ (fuel : Nat) {k : Walk} (s : State), Walked k →
    (Tree.walk w fuel k s).2.now + 2 * k.entries.length ≤ s.now + k.left + 2 * MAX_ENTRIES + 1
  | fuel, ⟨[], found, total, spelling⟩, s, walked | 0, ⟨dir :: todo, found, total, spelling⟩, s, walked => by
      have few : found.length ≤ MAX_ENTRIES := walked.few
      rw [Tree.walk]
      change s.now + 2 * found.length ≤ _
      omega
  | fuel + 1, ⟨dir :: todo, found, total, spelling⟩, s, walked => by
      have few : found.length ≤ MAX_ENTRIES := walked.few
      have left : Walk.left ⟨dir :: todo, found, total, spelling⟩ = Walk.left ⟨todo, found, total, spelling⟩ + 1 := by
        simp only [Walk.left, List.length_cons]
        omega
      rw [Tree.walk, left]
      match asked : ask w (fun source => source.names dir) s with
      | (.error e, s₁) =>
          have took := (ask_calls _).of_run asked
          rw [Work.bind_error.mpr (.inl asked)]
          dsimp only
          omega
      | (.ok listed, s₁) =>
          have took := (ask_calls _).of_run asked
          rw [Work.bind_run asked]
          obtain ⟨given, -⟩ := ask_ok asked
          have reading := walked.take given
          obtain ⟨all, added⟩ := visitAll_calls (w := w) dir ⟨todo, found, total, spelling⟩ listed s₁ few
          dsimp only at all added
          match visited : visitAll w dir ⟨todo, found, total, spelling⟩ listed s₁ with
          | (.error e, s₂) =>
              rw [visited] at all
              rw [Work.bind_error.mpr (.inl visited)]
              dsimp only at all ⊢
              omega
          | (.ok k, s₂) =>
              obtain ⟨few', less⟩ := added k s₂ visited
              obtain ⟨walked', fewer⟩ := reading.visitAll visited
              have rest := walked'.calls fuel s₂
              rw [Work.bind_run visited]
              dsimp only
              omega

def sizeAt (source : Source) (path : List Name) : Nat :=
  match source.stat path with
  | some found => if found.kind = .dir then 0 else found.len
  | none => 0

/-- What is in a source is among these paths, it can be read and listed, and it keeps within the limits. -/
structure Within (source : Source) (all : List (List Name)) : Prop where
  top : ∃ found, source.stat [] = some found ∧ found.kind = .dir
  listed : ∀ dir, dir = [] ∨ dir ∈ all ∧ (∃ found, source.stat dir = some found ∧ found.kind = .dir) →
    ∃ names, source.names dir = some names ∧ ∀ o ∈ names, ∃ name, o = .text name ∧ dir ++ [name] ∈ all
  known : ∀ path ∈ all, ∃ found, source.stat path = some found ∧ (found.kind = .file ∨ found.kind = .dir)
  spelled : ∀ path ∈ all, ∃ names, relative (spell path) = .ok names
  few : all.length ≤ MAX_ENTRIES
  short : (all.map fun path => bytesOf (spell path)).sum ≤ MAX_PATH_BYTES
  light : (all.map (sizeAt source)).sum ≤ CAP

/-- The source stays so, and no call on it fails. -/
def Still (w : World) (source : Source) : Prop := ∀ t, (w t).source = source ∧ (w t).fails = false

theorem call_still (still : Still w source) (s : State) : call w s = (.ok (w s.now), (tick w s).2) := by
  have ticked : tick w s = (.ok (w s.now), (tick w s).2) := rfl
  rw [call, Work.bind_run ticked, if_neg (by rw [(still s.now).2]; exact Bool.false_ne_true)]
  rfl

theorem ask_still (still : Still w source) {answer : Source → Option α} {a : α} (given : answer source = some a)
    (s : State) : ask w answer s = (.ok a, (tick w s).2) := by
  rw [ask, Work.bind_run (call_still still s), (still s.now).1, given]
  rfl

/-- What a walk has comes from the source. -/
def Drawn (source : Source) (all : List (List Name)) (entries : List Entry) : Prop :=
  ∀ e ∈ entries, parts e.path ∈ all ∧ e.size = sizeAt source (parts e.path) ∧
    (e.dir = true → ∃ found, source.stat (parts e.path) = some found ∧ found.kind = .dir)

theorem sublist_sum {xs ys : List Nat} (sub : xs.Sublist ys) : xs.sum ≤ ys.sum := by
  induction sub with
  | slnil => exact Nat.le_refl _
  | cons y _ ih =>
      rw [List.sum_cons]
      omega
  | cons_cons x _ ih =>
      rw [List.sum_cons, List.sum_cons]
      omega

theorem sum_le {xs ys : List α} (once : xs.Nodup) (within : xs ⊆ ys) (f : α → Nat) :
    (xs.map f).sum ≤ (ys.map f).sum := by
  obtain ⟨zs, same, sub⟩ := List.subperm_of_subset once within
  rw [← (same.map f).sum_nat]
  exact sublist_sum (sub.map f)

theorem Drawn.bounds {entries : List Entry} (drawn : Drawn source all entries)
    (distinct : (entries.map fun e => parts e.path).Nodup) :
    entries.length ≤ all.length ∧ spelled entries ≤ (all.map fun path => bytesOf (spell path)).sum ∧
      weight entries ≤ (all.map (sizeAt source)).sum := by
  have within : entries.map (fun e => parts e.path) ⊆ all := by
    intro path there
    obtain ⟨e, isEntry, rfl⟩ := List.mem_map.mp there
    exact (drawn e isEntry).1
  refine ⟨?_, ?_, ?_⟩
  · have := (List.subperm_of_subset distinct within).length_le
    rwa [List.length_map] at this
  · have := sum_le distinct within fun path => bytesOf (spell path)
    rw [List.map_map] at this
    have same : ((fun path => bytesOf (spell path)) ∘ fun e : Entry => parts e.path) = fun e => bytesOf e.path :=
      funext fun e => congrArg bytesOf (spell_parts e.path)
    rw [same] at this
    exact this
  · have := sum_le distinct within (sizeAt source)
    rw [List.map_map] at this
    have same : entries.map (sizeAt source ∘ fun e : Entry => parts e.path) = entries.map (·.size) :=
      List.map_congr_left fun e there => ((drawn e there).2.1).symm
    rw [same] at this
    exact this

/-- In such a source every name that is listed is visited without a refusal. -/
theorem Reading.visited (still : Still w source) (within : Within source all) {name : Name} {rest : List OsName}
    (reading : Reading k dir (.text name :: rest)) (drawn : Drawn source all k.entries) (there : dir ++ [name] ∈ all)
    (s : State) : ∃ k' s', Tree.visit w dir k (.text name) s = (.ok k', s') ∧ Drawn source all k'.entries := by
  obtain ⟨names, plain⟩ := within.spelled _ there
  obtain ⟨found, known, kind⟩ := within.known _ there
  have plainName : '/' ∉ name := reading.plain name (by simp)
  have key : parts (spell (dir ++ [name])) = dir ++ [name] := by
    refine parts_spell (fun n is => ?_) (by simp)
    rcases List.mem_append.mp is with is | is
    · exact reading.names n is
    · rw [List.mem_singleton.mp is]
      exact plainName
  have drawn' : Drawn source all (k.entries ++ [entryOf (spell (dir ++ [name])) found]) := by
    intro e isEntry
    rcases List.mem_append.mp isEntry with isEntry | isNew
    · exact drawn e isEntry
    · rw [List.mem_singleton.mp isNew]
      refine ⟨key.symm ▸ there, ?_, fun isDir => ⟨found, key.symm ▸ known, of_decide_eq_true isDir⟩⟩
      simp only [entryOf, sizeAt, key, known]
  have distinct : ((k.entries ++ [entryOf (spell (dir ++ [name])) found]).map fun e => parts e.path).Nodup := by
    rw [List.map_append, List.nodup_append]
    refine ⟨reading.walked.distinct, by simp, fun a isOld b isNew same => ?_⟩
    obtain ⟨e, isEntry, rfl⟩ := List.mem_map.mp isOld
    rw [List.map_singleton, List.mem_singleton] at isNew
    exact reading.fresh name (by simp) e isEntry (same.trans (isNew.trans key))
  obtain ⟨few, short, light⟩ := drawn'.bounds distinct
  have few := Nat.le_trans few within.few
  have short := Nat.le_trans short within.short
  have light := Nat.le_trans light within.light
  simp only [List.length_append, List.length_singleton, spelled, weight, List.map_append, List.sum_append,
    List.map_singleton, List.sum_singleton] at few short light
  have spelling := reading.walked.short.1
  have total := reading.walked.light.1
  simp only [spelled] at spelling
  simp only [weight] at total
  rw [spelling] at short
  rw [total] at light
  have fits : ¬ (MAX_ENTRIES ≤ k.entries.length ∨
      MAX_PATH_BYTES < min (k.spelling + bytesOf (spell (dir ++ [name]))) (2 ^ 64 - 1)) := by
    change k.spelling + bytesOf (spell (dir ++ [name])) ≤ MAX_PATH_BYTES at short
    omega
  have carries : ¬ CAP < min (k.total + (entryOf (spell (dir ++ [name])) found).size) (2 ^ 64 - 1) := by omega
  have able : ¬ (found.kind ≠ .file ∧ found.kind ≠ .dir) := by
    rintro ⟨noFile, noDir⟩
    rcases kind with is | is
    · exact noFile is
    · exact noDir is
  have lifted : (Work.lift (relative (spell (dir ++ [name]))) : Job _) (tick w s).2 = (.ok names, (tick w s).2) :=
    Work.lift_ok.mpr ⟨plain, rfl⟩
  let e := entryOf (spell (dir ++ [name])) found
  refine ⟨⟨if e.dir then (dir ++ [name]) :: k.todo else k.todo, k.entries ++ [e], min (k.total + e.size) (2 ^ 64 - 1),
    min (k.spelling + bytesOf (spell (dir ++ [name]))) (2 ^ 64 - 1)⟩, (tick w (tick w s).2).2, ?_, drawn'⟩
  rw [Tree.visit, Work.bind_run (call_still still s), Work.bind_run lifted]
  dsimp only
  rw [if_neg fits, Work.bind_run (ask_still still known _), if_neg able, if_neg carries]
  rfl

theorem Reading.visitedAll (still : Still w source) (within : Within source all) :
    ∀ {rest : List OsName} {k : Walk} {dir : List Name} (s : State),
    Reading k dir rest → Drawn source all k.entries → (∀ o ∈ rest, ∃ name, o = .text name ∧ dir ++ [name] ∈ all) →
    ∃ k' s', Tree.visitAll w dir k rest s = (.ok k', s') ∧ Drawn source all k'.entries
  | [], k, _, s, _, drawn, _ => ⟨k, s, rfl, drawn⟩
  | o :: rest, k, dir, s, reading, drawn, there => by
      obtain ⟨name, rfl, isIn⟩ := there o (by simp)
      obtain ⟨k₁, s₁, first, drawn⟩ := reading.visited still within drawn isIn s
      obtain ⟨k₂, s₂, others, drawn⟩ := Reading.visitedAll still within s₁ (reading.visit first).1 drawn
        fun o isRest => there o (.tail _ isRest)
      refine ⟨k₂, s₂, ?_, drawn⟩
      rw [Tree.visitAll, Work.bind_run first, others]

theorem Walked.walked (still : Still w source) (within : Within source all) :
    ∀ {fuel : Nat} {k : Walk} (s : State), Walked k → k.left ≤ fuel →
    Drawn source all k.entries → ∃ entries s', Tree.walk w fuel k s = (.ok entries, s')
  | fuel, ⟨[], found, total, spelling⟩, s, _, _, _ => ⟨found, s, by rw [Tree.walk]; rfl⟩
  | 0, ⟨dir :: todo, found, total, spelling⟩, s, _, left, _ => by simp [Walk.left] at left
  | fuel + 1, ⟨dir :: todo, found, total, spelling⟩, s, walked, left, drawn => by
      have readable : dir = [] ∨ dir ∈ all ∧ ∃ found, source.stat dir = some found ∧ found.kind = .dir := by
        rcases walked.listed dir (by simp) with none | ⟨e, isEntry, rfl, isDir⟩
        · exact .inl none
        · obtain ⟨isIn, -, known⟩ := drawn e isEntry
          exact .inr ⟨isIn, known isDir⟩
      obtain ⟨names, given, there⟩ := within.listed dir readable
      have reading := walked.take given
      obtain ⟨k, s₁, visited, drawn⟩ := reading.visitedAll still within (tick w s).2 drawn there
      obtain ⟨walked, less⟩ := reading.visitAll visited
      have left : k.left ≤ fuel := by
        simp only [Walk.left, List.length_cons] at left less ⊢
        omega
      obtain ⟨entries, s', goes⟩ := walked.walked still within s₁ left drawn
      refine ⟨entries, s', ?_⟩
      rw [Tree.walk, Work.bind_run (ask_still still given s), Work.bind_run visited, goes]

/-- **A source that stays as it is and keeps within the limits is listed**, and what is listed is accepted. -/
theorem scan_still (still : Still w source) (within : Within source all) (absolute : path.head? = some '/')
    (s : State) : ∃ m s', scan w path s = (.ok (some m), s') := by
  obtain ⟨found, known, isDir⟩ := within.top
  have drawn : Drawn source all [] := fun e there => absurd there List.not_mem_nil
  obtain ⟨entries, s', goes⟩ : ∃ entries s', entriesOf w (tick w (tick w s).2).2 = (.ok entries, s') :=
    Walked.walked still within _ Walked.start (by decide) drawn
  have accepted := entriesOf_checked goes
  have other : ¬ (found.kind = .file ∨ found.kind = .link ∧ (w (s.now + 1)).source.leadsToFile = true) := by
    rw [isDir]
    rintro (is | ⟨is, -⟩) <;> cases is
  have ticked : tick w (tick w s).2 = (.ok (w (s.now + 1)), (tick w (tick w s).2).2) := rfl
  have lifted : (Work.lift (checked entries) : Job _) s' = (.ok ⟨sorted entries, weight entries⟩, s') :=
    Work.lift_ok.mpr ⟨accepted, rfl⟩
  refine ⟨⟨sorted entries, weight entries⟩, s', ?_⟩
  rw [scan, if_neg (fun other => other absolute), Work.bind_run (ask_still still known s), Work.bind_run ticked,
    if_neg other, if_neg (fun other => other isDir), Work.bind_run goes, Work.bind_run lifted]
  rfl

end Khor.Tree
