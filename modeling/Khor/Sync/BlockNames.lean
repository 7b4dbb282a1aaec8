/-
Module: Khor.Sync.BlockNames
Purpose: When block names are given out once. A name that was used is on disk or in the ledger file as
  long as no step takes its last record, and a number is then picked past every used one. A save of the
  ledger by a copy that has not seen the newer lines takes them, and a later copy under the same writer's
  name picks a used number.
Trusted boundary: none
Main exports: Copy.Change, Copy.step_change, Named, names_given_once, a_name_is_given_twice
-/
import Khor.Sync.SharedDir

namespace Khor.Sync.SharedDir

open Khor.Sync.BlockStore

/-! ### What a step changes -/

/-- The ledger file after a step: as it was, or saved from the memory of a copy that is abreast of it
where names are kept. -/
def Ledgered (dir : Dir) (copy : Copy) (a : Act) (dir' : Dir) : Prop :=
  dir'.merged = dir.merged ∨
    ((copy.keepsNames dir a → Abreast dir copy) ∧ copy.store.ledger ⊆ dir'.merged)

/-- What one step of a copy changes of the directory's files and of the blocks written: nothing but
perhaps the ledger; nothing, with a number picked; one block more; or one block less. -/
inductive Copy.Change (dir : Dir) (copy : Copy) (a : Act) (e : Effect) : Prop where
  | still (blocks : e.dir.blocks = dir.blocks) (ledgered : Ledgered dir copy a e.dir)
      (wrote : e.wrote = none) (unnumbered : ∀ old name bytes, e.copy.phase ≠ .numbered old name bytes)
  | numbered (kind : BlockKind) (due old : List BlockName) (bytes : Bytes) (act : a = .number)
      (phase : copy.phase = .due kind due bytes) (same : e.dir = dir) (wrote : e.wrote = none)
      (next : e.copy.phase = .numbered old (.block kind copy.doc.peer (copy.numberIn dir kind)) bytes)
  | wrote (old : List BlockName) (name : BlockName) (bytes : Bytes)
      (phase : copy.phase = .numbered old name bytes)
      (blocks : e.dir.blocks = dir.blocks.insert name bytes) (merged : e.dir.merged = dir.merged)
      (wrote : e.wrote = some (name, bytes)) (next : e.copy.phase = .deleting old name)
  | deleted (gone : BlockName) (left : List BlockName) (name : BlockName)
      (phase : copy.phase = .deleting (gone :: left) name)
      (kept : copy.keepsNames dir a → gone ∈ dir.merged)
      (blocks : e.dir.blocks = dir.blocks ∨ e.dir.blocks = dir.blocks.erase gone)
      (merged : e.dir.merged = dir.merged) (wrote : e.wrote = none)
      (next : e.copy.phase = .deleting left name)

variable {dir : Dir} {copy : Copy} {a : Act} {s : World}

/-- A step that leaves the directory alone and picks no number. -/
theorem Copy.Change.quiet {copy' : Copy} (unnumbered : ∀ old name bytes, copy'.phase ≠ .numbered old name bytes) :
    copy.Change dir a (.quiet dir copy') :=
  .still rfl (Or.inl rfl) rfl unnumbered

variable {kept : Option Kept} {e : Effect}

/-- A step keeps the copy's name and its process, and changes no more than `Change` says. -/
def Copy.Steps (dir : Dir) (copy : Copy) (a : Act) (e : Effect) : Prop :=
  e.copy.doc.peer = copy.doc.peer ∧ e.copy.proc = copy.proc ∧ copy.Change dir a e

theorem Copy.hit_change (h : copy.hit dir kept = some e) : copy.Steps dir .hit e := by
  unfold Copy.hit at h
  split at h
  · split at h
    · split at h
      · cases h
      · rename_i hmerge
        obtain ⟨ops, _, rfl, _⟩ := LoroDoc.mergeReport_cases hmerge
        split at h <;> cases h
        exact ⟨rfl, rfl, .quiet (by simp)⟩
    · cases h
  · cases h

theorem Copy.beginPass_change {base : Bool} (h : copy.beginPass dir kept base = some e) :
    copy.Steps dir (.beginPass base) e := by
  unfold Copy.beginPass at h
  split at h
  · split at h
    · split at h
      · split at h
        · cases h
          exact ⟨rfl, rfl, .quiet (by simp [Copy.beginBare])⟩
        · rename_i hmerge
          obtain ⟨ops, _, rfl, _⟩ := LoroDoc.mergeReport_cases hmerge
          split at h <;> cases h
          · exact ⟨rfl, rfl, .quiet (by simp)⟩
          · exact ⟨rfl, rfl, .quiet (by simp [Copy.beginBare])⟩
      · cases h
    · cases h
      exact ⟨rfl, rfl, .quiet (by simp [Copy.beginBare])⟩
  · cases h

theorem Copy.read_change {unread : Bool} (h : copy.read dir unread = some e) :
    copy.Steps dir (.read unread) e := by
  unfold Copy.read at h
  split at h
  · split at h
    · cases h
      exact ⟨rfl, rfl, .quiet (by simp)⟩
    · split at h
      · cases h
        exact ⟨rfl, rfl, .quiet (by simp)⟩
      · split at h
        · cases h
          exact ⟨rfl, rfl, .quiet (by simp)⟩
        · rename_i hmerge
          obtain ⟨ops, _, rfl, _⟩ := LoroDoc.mergeReport_cases hmerge
          cases h
          exact ⟨rfl, rfl, .quiet (by simp)⟩
  · cases h

theorem Copy.learn_change (h : copy.learn dir = some e) : copy.Steps dir .learn e := by
  unfold Copy.learn at h
  split at h
  · rename_i before again vanished grew hphase
    cases h
    refine ⟨rfl, rfl, .still ?_ ?_ rfl ?_⟩
    · simp only [Effect.quiet]
      split <;> rfl
    · simp only [Effect.quiet]
      split
      · rename_i saves
        refine Or.inr ⟨fun keeps => ?_, subset_rfl⟩
        simpa [Copy.keepsNames, hphase, saves.2] using keeps
      · exact Or.inl rfl
    · simp only [Effect.quiet]
      split <;> simp
  · cases h

/-- A step that makes the directory changes nothing of it. -/
theorem Copy.made_change {io : Io} {r : Except String Unit} {store : BlockStore} {phase : Phase}
    (made : makeDir io (copy.here dir) = (r, store)) (unnumbered : ∀ old name bytes, phase ≠ .numbered old name bytes) :
    copy.Steps dir a (.quiet store.dir { copy with store, phase }) := by
  have books := makeDir_books made
  exact ⟨rfl, rfl, .still books.blocks (Or.inl books.merged) rfl unnumbered⟩

theorem Copy.flush_change {io : Io} (h : copy.flush dir io = some e) : copy.Steps dir (.flush io) e := by
  unfold Copy.flush at h
  split at h
  · rename_i hphase
    split at h
    · cases h
    · split at h
      all_goals
        rename_i hmade
        cases h
      · exact made_change hmade (by simp [hphase])
      · exact made_change hmade (by simp)
  · cases h

theorem Copy.compact_change {io : Io} (h : copy.compact dir io = some e) : copy.Steps dir (.compact io) e := by
  unfold Copy.compact at h
  split at h
  · rename_i hphase
    split at h
    · cases h
    · split at h
      all_goals
        rename_i hmade
        cases h
      · exact made_change hmade (by simp [hphase])
      · exact made_change hmade (by simp)
  · cases h

theorem Copy.delete_change {stuck : Bool} (h : copy.delete dir stuck = some e) :
    copy.Steps dir (.delete stuck) e := by
  unfold Copy.delete at h
  split at h
  · rename_i gone left name hphase
    cases h
    refine ⟨rfl, rfl, .deleted gone left name hphase ?_ ?_ rfl rfl rfl⟩
    · intro keeps
      simpa [Copy.keepsNames, hphase] using keeps
    · simp only [Effect.quiet, deleteBlock, Copy.here]
      split
      · exact Or.inl rfl
      · exact Or.inr rfl
  · cases h

theorem Copy.save_change (h : copy.save dir = some e) : copy.Steps dir .save e := by
  unfold Copy.save at h
  split at h
  · rename_i name hphase
    cases h
    refine ⟨rfl, rfl, .still rfl (Or.inr ⟨fun keeps => ?_, ?_⟩) rfl (by simp [Effect.quiet])⟩
    · simpa [Copy.keepsNames, hphase] using keeps
    · exact Finset.subset_insert _ _
  · cases h

/-- The one lemma about a copy's step: its name stays, and what it changes. -/
theorem Copy.step_change (h : copy.step dir kept a = some e) : copy.Steps dir a e := by
  cases a with
  | list =>
      simp only [Copy.step, Copy.list] at h
      split at h <;> cases h
      exact ⟨rfl, rfl, .quiet (by simp)⟩
  | hit => exact hit_change h
  | beginPass base => exact beginPass_change h
  | enlist =>
      simp only [Copy.step, Copy.enlist] at h
      split at h <;> cases h
      exact ⟨rfl, rfl, .quiet (by simp)⟩
  | read unread => exact read_change h
  | learn => exact learn_change h
  | keep same =>
      simp only [Copy.step, Copy.keep] at h
      split at h
      · split at h <;> cases h
        · exact ⟨rfl, rfl, .still rfl (Or.inl rfl) rfl (by simp)⟩
        · exact ⟨rfl, rfl, .quiet (by simp)⟩
      · cases h
  | edit deps body =>
      simp only [Copy.step, Copy.edit] at h
      split at h
      · rename_i hphase
        cases h
        exact ⟨copy.doc.commit_peer deps body, rfl, .quiet (by simp [hphase])⟩
      · cases h
  | merge bytes =>
      simp only [Copy.step, Copy.merge] at h
      split at h
      · rename_i hphase
        split at h
        · cases h
        · rename_i hmerge
          obtain ⟨ops, _, rfl, _⟩ := LoroDoc.mergeReport_cases hmerge
          cases h
          exact ⟨rfl, rfl, .quiet (by simp [hphase])⟩
      · cases h
  | flush io => exact flush_change h
  | compact io => exact compact_change h
  | number =>
      simp only [Copy.step, Copy.number] at h
      split at h
      · rename_i kind due bytes hphase
        cases h
        exact ⟨rfl, rfl, .numbered kind due _ bytes rfl hphase rfl rfl rfl⟩
      · cases h
  | write =>
      simp only [Copy.step, Copy.write] at h
      split at h
      · rename_i old name bytes hphase
        cases h
        exact ⟨rfl, rfl, .wrote old name bytes hphase rfl rfl rfl rfl⟩
      · cases h
  | delete stuck => exact delete_change h
  | save => exact save_change h
  | fail =>
      simp only [Copy.step, Copy.fail] at h
      split at h <;> cases h
      · exact ⟨rfl, rfl, .quiet (by simp)⟩
      · exact ⟨rfl, rfl, .quiet (by simp)⟩

/-! ### The world after a step -/

theorem World.lookup_after_self (s : World) (c : Nat) (e : Effect) :
    (s.after c e).copies.lookup c = some e.copy :=
  AList.lookup_insert _

theorem World.lookup_after_ne (s : World) {c c' : Nat} (e : Effect) (ne : c' ≠ c) :
    (s.after c e).copies.lookup c' = s.copies.lookup c' :=
  AList.lookup_insert_ne ne

/-- What an event of the world comes to: nothing; a copy that has taken its name; a step of a copy that
is able to take it; or a copy gone. -/
theorem step_cases (s : World) (e : Event) :
    step s e = s ∨
      (∃ c proc name, e = .take c proc name ∧ s.copies.lookup c = none ∧
        step s e = { s with copies := s.copies.insert c (.taken s.dir proc name) }) ∨
      (∃ c a copy eff, e = .act c a ∧ s.copies.lookup c = some copy ∧
        copy.step s.dir (s.kept.lookup copy.proc) a = some eff ∧ step s e = s.after c eff) ∨
      ∃ c, e = .close c ∧ step s e = { s with copies := s.copies.erase c } := by
  cases e with
  | take c proc name =>
      by_cases taken : c ∈ s.copies
      · exact Or.inl (if_pos taken)
      · exact Or.inr (Or.inl ⟨c, proc, name, rfl, AList.lookup_eq_none.mpr taken, if_neg taken⟩)
  | act c a =>
      simp only [step]
      split
      · exact Or.inl rfl
      · rename_i copy hlookup
        split
        · exact Or.inl rfl
        · rename_i eff hstep
          exact Or.inr (Or.inr (Or.inl ⟨c, a, copy, eff, rfl, hlookup, hstep, rfl⟩))
  | close c => exact Or.inr (Or.inr (Or.inr ⟨c, rfl, rfl⟩))

/-! ### Every used name has a record -/

/-- What keeps names apart. Every name a block was written under is on disk or in the ledger file, and
was written once; what is on disk was written under its name; open copies hold different names; and a
number that is picked and not yet written under is its copy's own and free. -/
structure Named (s : World) : Prop where
  used : ∀ e ∈ s.written, e.1 ∈ s.dir.blocks ∨ e.1 ∈ s.dir.merged
  once : (s.written.map Prod.fst).Nodup
  backed : ∀ name bytes, s.dir.blocks.lookup name = some bytes → (name, bytes) ∈ s.written
  apart : ∀ {c c' copy copy'}, s.copies.lookup c = some copy → s.copies.lookup c' = some copy' →
    copy.doc.peer = copy'.doc.peer → c = c'
  free : ∀ {c copy old name bytes}, s.copies.lookup c = some copy →
    copy.phase = .numbered old name bytes →
      (∀ e ∈ s.written, e.1 ≠ name) ∧ ∃ kind seq, name = .block kind copy.doc.peer seq

theorem named_start (dir : Dir) : Named (start dir) := by
  refine ⟨?_, ?_, ?_, ?_, ?_⟩
  · intro e he
    obtain ⟨entry, hentry, rfl⟩ := List.mem_map.mp he
    exact Or.inl (AList.mem_keys.mpr (List.mem_map_of_mem hentry))
  · have keys : (start dir).written.map Prod.fst = dir.blocks.keys := by
      simp [start, AList.keys, List.keys, Function.comp_def]
    rw [keys]
    exact dir.blocks.keys_nodup
  · intro name bytes hlookup
    exact List.mem_map.mpr ⟨⟨name, bytes⟩, AList.mem_lookup_iff.mp hlookup, rfl⟩
  · intro c c' copy copy' h
    cases h
  · intro c copy old name bytes h
    cases h

/-- A number picked by a copy that is abreast of its own lines is past every number in use. -/
theorem free_of_number (h : Named s) {kind : BlockKind} (abreast : AbreastOwn s.dir copy kind)
    (left : ((copy.here s.dir).nextNumber kind copy.doc.peer).isSome) :
    ∀ e ∈ s.written, e.1 ≠ .block kind copy.doc.peer (copy.numberIn s.dir kind) := by
  intro e he same
  obtain ⟨next, hnext⟩ := Option.isSome_iff_exists.mp left
  have picked : copy.numberIn s.dir kind = next := by
    unfold nextNumber at hnext
    dsimp only at hnext
    split at hnext
    · rename_i small
      cases hnext
      exact Nat.mod_eq_of_lt small
    · cases hnext
  have recorded : e.1 ∈ s.dir.blocks ∨ e.1 ∈ copy.store.ledger := by
    rcases h.used e he with disk | line
    · exact Or.inl disk
    · refine abreast e.1 line ?_
      rw [same, numberAfter, if_pos ⟨rfl, rfl⟩]
      exact Nat.succ_ne_zero _
  rw [same, picked] at recorded
  exact Nat.lt_irrefl _ (lt_of_nextNumber hnext recorded)

/-- A copy's careful step keeps every name recorded. -/
theorem named_act {c : Nat} {e : Effect} (h : Named s) (hlookup : s.copies.lookup c = some copy)
    (hstep : copy.step s.dir (s.kept.lookup copy.proc) a = some e) (keeps : copy.keepsNames s.dir a) :
    Named (s.after c e) := by
  obtain ⟨peer, _, change⟩ := Copy.step_change hstep
  have apart : ∀ {c₁ c₂ copy₁ copy₂}, (s.after c e).copies.lookup c₁ = some copy₁ →
      (s.after c e).copies.lookup c₂ = some copy₂ → copy₁.doc.peer = copy₂.doc.peer → c₁ = c₂ := by
    intro c₁ c₂ copy₁ copy₂ h₁ h₂ same
    by_cases eq₁ : c₁ = c <;> by_cases eq₂ : c₂ = c
    · rw [eq₁, eq₂]
    · rw [eq₁, s.lookup_after_self] at h₁
      rw [s.lookup_after_ne e eq₂] at h₂
      cases h₁
      exact eq₁.trans (h.apart hlookup h₂ (peer.symm.trans same))
    · rw [s.lookup_after_ne e eq₁] at h₁
      rw [eq₂, s.lookup_after_self] at h₂
      cases h₂
      exact (h.apart h₁ hlookup (same.trans peer)).trans eq₂.symm
    · rw [s.lookup_after_ne e eq₁] at h₁
      rw [s.lookup_after_ne e eq₂] at h₂
      exact h.apart h₁ h₂ same
  -- with nothing written, what was free stays free
  have free : e.wrote = none →
      (∀ old name bytes, e.copy.phase = .numbered old name bytes →
        (∀ e' ∈ s.written, e'.1 ≠ name) ∧ ∃ kind seq, name = .block kind copy.doc.peer seq) →
      ∀ {c₁ copy₁ old name bytes}, (s.after c e).copies.lookup c₁ = some copy₁ →
        copy₁.phase = .numbered old name bytes →
          (∀ e' ∈ (s.after c e).written, e'.1 ≠ name) ∧
            ∃ kind seq, name = .block kind copy₁.doc.peer seq := by
    intro wrote own c₁ copy₁ old name bytes h₁ phase
    have same : (s.after c e).written = s.written := by simp [World.after, wrote]
    rw [same]
    by_cases eq : c₁ = c
    · rw [eq, s.lookup_after_self] at h₁
      cases h₁
      rw [peer]
      exact own old name bytes phase
    · rw [s.lookup_after_ne e eq] at h₁
      exact h.free h₁ phase
  cases change with
  | still blocks ledgered wrote unnumbered =>
      have same : (s.after c e).written = s.written := by simp [World.after, wrote]
      refine ⟨?_, same ▸ h.once, ?_, apart,
        free wrote fun old name bytes phase => absurd phase (unnumbered old name bytes)⟩
      · intro e' he'
        rw [same] at he'
        show e'.1 ∈ e.dir.blocks ∨ e'.1 ∈ e.dir.merged
        rw [blocks]
        rcases h.used e' he' with disk | line
        · exact Or.inl disk
        · rcases ledgered with kept | ⟨abreast, saved⟩
          · rw [kept]
            exact Or.inr line
          · -- a line whose block is gone is in the memory the ledger is saved from
            exact (abreast keeps e'.1 line).imp_right (@saved e'.1)
      · rw [same]
        show ∀ name bytes, e.dir.blocks.lookup name = some bytes → _
        rw [blocks]
        exact h.backed
  | numbered kind due old bytes act phase dir wrote next =>
      have same : (s.after c e).written = s.written := by simp [World.after, wrote]
      rw [act] at keeps
      simp only [Copy.keepsNames, phase] at keeps
      refine ⟨?_, same ▸ h.once, ?_, apart, free wrote fun old' name' bytes' phase' => ?_⟩
      · rw [same]
        show ∀ e' ∈ s.written, e'.1 ∈ e.dir.blocks ∨ e'.1 ∈ e.dir.merged
        rw [dir]
        exact h.used
      · rw [same]
        show ∀ name bytes, e.dir.blocks.lookup name = some bytes → _
        rw [dir]
        exact h.backed
      · rw [next] at phase'
        cases phase'
        exact ⟨free_of_number h keeps.1 keeps.2, kind, _, rfl⟩
  | wrote old name bytes phase blocks merged wrote next =>
      have more : (s.after c e).written = s.written ++ [(name, bytes)] := by
        simp [World.after, wrote]
      obtain ⟨unused, kind, seq, own⟩ := h.free hlookup phase
      refine ⟨?_, ?_, ?_, apart, ?_⟩
      · intro e' he'
        show e'.1 ∈ e.dir.blocks ∨ e'.1 ∈ e.dir.merged
        rw [blocks, merged]
        rw [more] at he'
        rcases List.mem_append.mp he' with old | new
        · exact (h.used e' old).imp_left fun mem => AList.mem_insert _ |>.mpr (Or.inr mem)
        · rw [List.mem_singleton.mp new]
          exact Or.inl (AList.mem_insert _ |>.mpr (Or.inl rfl))
      · rw [more, List.map_append, List.nodup_append]
        refine ⟨h.once, List.nodup_singleton _, fun used hused new hnew => ?_⟩
        obtain ⟨e', he', rfl⟩ := List.mem_map.mp hused
        rw [List.mem_singleton.mp hnew]
        exact unused e' he'
      · intro name' bytes' hlookup'
        have inserted : (s.dir.blocks.insert name bytes).lookup name' = some bytes' :=
          blocks ▸ hlookup'
        rw [more]
        by_cases eq : name' = name
        · rw [eq, AList.lookup_insert] at inserted
          cases inserted
          rw [eq]
          exact List.mem_append_right _ (List.mem_singleton_self _)
        · rw [AList.lookup_insert_ne eq] at inserted
          exact List.mem_append_left _ (h.backed name' bytes' inserted)
      · intro c₁ copy₁ old₁ name₁ bytes₁ h₁ phase₁
        by_cases eq : c₁ = c
        · rw [eq, s.lookup_after_self] at h₁
          cases h₁
          rw [next] at phase₁
          cases phase₁
        · rw [s.lookup_after_ne e eq] at h₁
          obtain ⟨unused₁, kind₁, seq₁, own₁⟩ := h.free h₁ phase₁
          refine ⟨fun e' he' => ?_, kind₁, seq₁, own₁⟩
          rw [more] at he'
          rcases List.mem_append.mp he' with old | new
          · exact unused₁ e' old
          · -- the name just written under is another writer's
            rw [List.mem_singleton.mp new, own, own₁]
            intro same
            exact eq (h.apart h₁ hlookup (BlockName.block.inj same).2.1.symm)
  | deleted gone left name phase kept blocks merged wrote next =>
      have same : (s.after c e).written = s.written := by simp [World.after, wrote]
      have fewer : ∀ {n bytes}, e.dir.blocks.lookup n = some bytes →
          s.dir.blocks.lookup n = some bytes := by
        intro n bytes hlookup'
        rcases blocks with kept | erased
        · rw [kept] at hlookup'
          exact hlookup'
        · rw [erased] at hlookup'
          by_cases eq : n = gone
          · rw [eq, AList.lookup_erase] at hlookup'
            cases hlookup'
          · rw [AList.lookup_erase_ne eq] at hlookup'
            exact hlookup'
      refine ⟨?_, same ▸ h.once, ?_, apart, free wrote fun old' name' bytes' phase' => ?_⟩
      · intro e' he'
        rw [same] at he'
        show e'.1 ∈ e.dir.blocks ∨ e'.1 ∈ e.dir.merged
        rw [merged]
        by_cases eq : e'.1 = gone
        · rw [eq]
          exact Or.inr (kept keeps)
        · refine (h.used e' he').imp_left fun disk => ?_
          rcases blocks with all | erased
          · rw [all]
            exact disk
          · rw [erased]
            exact AList.mem_erase.mpr ⟨eq, disk⟩
      · rw [same]
        exact fun n bytes hlookup' => h.backed n bytes (fewer hlookup')
      · rw [next] at phase'
        cases phase'

/-- Step lemma. -/
theorem named_step {e : Event} (careful : Careful s e) (h : Named s) : Named (step s e) := by
  rcases step_cases s e with same | ⟨c, proc, name, rfl, unopened, same⟩ |
    ⟨c, a, copy, eff, rfl, hlookup, hstep, same⟩ | ⟨c, rfl, same⟩
  · rw [same]
    exact h
  · rw [same]
    have others : ∀ {c' copy'}, s.copies.lookup c' = some copy' → copy'.doc.peer ≠ name :=
      fun hlookup' => careful.1 ⟨_, _⟩ (AList.mem_lookup_iff.mp hlookup')
    refine ⟨h.used, h.once, h.backed, ?_, ?_⟩
    · intro c₁ c₂ copy₁ copy₂ h₁ h₂ peer
      by_cases eq₁ : c₁ = c <;> by_cases eq₂ : c₂ = c
      · rw [eq₁, eq₂]
      · rw [eq₁, AList.lookup_insert] at h₁
        rw [AList.lookup_insert_ne eq₂] at h₂
        cases h₁
        exact absurd peer.symm (others h₂)
      · rw [AList.lookup_insert_ne eq₁] at h₁
        rw [eq₂, AList.lookup_insert] at h₂
        cases h₂
        exact absurd peer (others h₁)
      · rw [AList.lookup_insert_ne eq₁] at h₁
        rw [AList.lookup_insert_ne eq₂] at h₂
        exact h.apart h₁ h₂ peer
    · intro c₁ copy₁ old₁ name₁ bytes₁ h₁ phase₁
      by_cases eq : c₁ = c
      · rw [eq, AList.lookup_insert] at h₁
        cases h₁
        cases phase₁
      · rw [AList.lookup_insert_ne eq] at h₁
        exact h.free h₁ phase₁
  · rw [same]
    have keeps : copy.keepsNames s.dir a := by
      have kept := careful.2
      rw [KeepsNames, hlookup] at kept
      exact kept
    exact named_act h hlookup hstep keeps
  · rw [same]
    have still : ∀ {c' copy'}, (s.copies.erase c).lookup c' = some copy' →
        s.copies.lookup c' = some copy' := by
      intro c' copy' h'
      by_cases eq : c' = c
      · rw [eq, AList.lookup_erase] at h'
        cases h'
      · rw [AList.lookup_erase_ne eq] at h'
        exact h'
    exact ⟨h.used, h.once, h.backed, fun h₁ h₂ => h.apart (still h₁) (still h₂), fun h₁ => h.free (still h₁)⟩

/-- Run lemma. -/
theorem named_run (run : Runs step Careful (start dir) s) : Named s :=
  run.invariant named_step (named_start dir)

/-- Blocks written stay written. -/
theorem written_grows {s' : World} {permit : World → Event → Prop} (run : Runs step permit s s') :
    ∀ e ∈ s.written, e ∈ s'.written := by
  refine @Runs.invariant _ _ _ _ (fun s' => ∀ e ∈ s.written, e ∈ s'.written) ?_ _ _ run fun e he => he
  intro s₁ e _ h block hblock
  rcases step_cases s₁ e with same | ⟨_, _, _, _, _, same⟩ | ⟨_, _, _, _, _, _, _, same⟩ |
    ⟨_, _, same⟩ <;> rw [same]
  · exact h block hblock
  · exact h block hblock
  · exact List.mem_append_left _ (h block hblock)
  · exact h block hblock

/-! ### Names are given out once -/

/-- **Block names are given out once.** In every run in which open copies hold different names and no
step takes a name's last record, no two blocks with different contents are written under one name. So
what a far side read under a name is what is, or ever was, or ever comes to be under it. -/
theorem names_given_once {dir : Dir} {s s' : World} (run : Runs step Careful (start dir) s)
    (later : Runs step Careful s s') :
    (∀ name bytes bytes', (name, bytes) ∈ s'.written → (name, bytes') ∈ s'.written → bytes = bytes') ∧
    (∀ name bytes bytes', s.dir.blocks.lookup name = some bytes → (name, bytes') ∈ s'.written →
      bytes = bytes') := by
  have named := named_run (run.trans later)
  have once : ∀ name bytes bytes', (name, bytes) ∈ s'.written → (name, bytes') ∈ s'.written →
      bytes = bytes' := by
    intro name bytes bytes' h h'
    have same := List.inj_on_of_nodup_map named.once h h' rfl
    exact (Prod.mk.inj same).2
  refine ⟨once, fun name bytes bytes' pulled h' => ?_⟩
  exact once name bytes bytes' (written_grows later _ ((named_run run).backed name bytes pulled)) h'

/-! ### A name is given twice -/

/-- Copy `c` is opened under a name, in a process of its own, over a directory with `files` blocks. -/
def opens (c : Nat) (name : Writer) (files : Nat) : List Event :=
  [.take c c name, .act c .list, .act c (.beginPass false), .act c .enlist] ++
    List.replicate files (.act c (.read false)) ++ [.act c .learn, .act c (.keep true)]

/-- Copy `c` edits and flushes. -/
def writes (c : Nat) (body : Nat) : List Event :=
  [.act c (.edit [] body), .act c (.flush {}), .act c .number, .act c .write, .act c .save]

/-- Copy `c` compacts `old` blocks away. -/
def compacts (c : Nat) (old : Nat) : List Event :=
  [.act c (.compact {}), .act c .number, .act c .write] ++
    List.replicate old (.act c (.delete false)) ++ [.act c .save]

/-- A directory nobody has written to. -/
def bare : World := start (Dir.fresh ['d'])

/-- A copy opens, writes and closes, and a later one under its name writes again. -/
def handedOn : List Event :=
  opens 0 1 0 ++ writes 0 7 ++ [.close 0] ++ opens 1 1 1 ++ writes 1 8

theorem handedOn_given_once : Set.InjOn Prod.fst {e | e ∈ (handedOn.foldl step bare).written} := by
  have run : Fits step Careful bare handedOn := by decide +kernel
  rintro ⟨name, bytes⟩ there ⟨_, bytes'⟩ there' rfl
  exact Prod.ext rfl ((names_given_once run.runs (.refl _)).1 name bytes bytes' there there')

/-- Copy 0 is open when writer 1 writes its block and compacts it away. Copy 0's save of the ledger
takes the block's line out of the file, and the next copy under name 1 takes its number again. -/
def forgotten : List Event :=
  opens 0 10 0 ++ opens 1 1 0 ++ writes 1 7 ++ compacts 1 1 ++ writes 0 5 ++ [.close 1] ++
    opens 2 1 2 ++ writes 2 8

/-- Names are not given out once for every run in which open copies hold different names. -/
theorem a_name_is_given_twice :
    ∃ s, Runs step Apart bare s ∧
      ∃ name bytes bytes', (name, bytes) ∈ s.written ∧ (name, bytes') ∈ s.written ∧
        bytes ≠ bytes' := by
  refine ⟨forgotten.foldl step bare, Fits.runs (by decide +kernel), .block .u 1 0,
    some [⟨1, 0, [], 7⟩], some [⟨1, 1, [], 8⟩], ?_, ?_, by decide⟩
  · decide +kernel
  · decide +kernel

end Khor.Sync.SharedDir
