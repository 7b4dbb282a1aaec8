/-
Module: Khor.Sync.Compaction
Purpose: Compaction loses nothing while block names are given out once. Every block ever written is covered
  by a block on disk that is at least as new: itself, or a snapshot that holds all of it. A copy holds
  what it has merged, a compactor deletes what its snapshot covers, and what a process keeps of a read
  covers the blocks it was made of. Where a name is given out twice, the second block is deleted by a
  copy that has merged only the first.
Trusted boundary: none
Main exports: Covers, Honest, safe_step, compaction_loses_nothing, compaction_deletes_an_unread_block
-/
import Khor.Sync.BlockNames

namespace Khor.Sync.SharedDir

open Khor.Sync.BlockStore

abbrev Written := List (BlockName × Bytes)

abbrev Blocks := AList (fun _ : BlockName => Bytes)

/-! ### What covers what -/

/-- `bytes'` makes `bytes` superfluous: it is the same block, or a whole log that reaches every
operation of it. -/
def Covers (bytes' bytes : Bytes) : Prop :=
  bytes' = bytes ∨
    ∃ log, bytes' = some log ∧ CausalLog log ∧ ∀ ops, bytes = some ops → ∀ o ∈ ops, Held log o

theorem Covers.trans {b₁ b₂ b₃ : Bytes} (h : Covers b₃ b₂) (h' : Covers b₂ b₁) : Covers b₃ b₁ := by
  rcases h with rfl | ⟨log, rfl, causal, reaches⟩
  · exact h'
  · rcases h' with rfl | ⟨log', rfl, causal', reaches'⟩
    · exact Or.inr ⟨log, rfl, causal, reaches⟩
    · refine Or.inr ⟨log, rfl, causal, fun ops hops o ho => ?_⟩
      -- the operation's name is taken in the middle log by one that the last log reaches
      obtain ⟨o', ho', writer, counter⟩ := causal'.exists_of_lt (reaches' ops hops o ho)
      have held := reaches log' rfl o' ho'
      rw [Held, writer, counter] at held
      exact held

/-- Every block ever written is covered by one on disk that was written no earlier. -/
def Covered (written : Written) (blocks : Blocks) : Prop :=
  ∀ (i : Nat) (name : BlockName) (bytes : Bytes), written[i]? = some (name, bytes) →
    ∃ (j : Nat) (name' : BlockName) (bytes' : Bytes), i ≤ j ∧ written[j]? = some (name', bytes') ∧
      blocks.lookup name' = some bytes' ∧ Covers bytes' bytes

/-- `name` was written after `old`, and covers it. -/
def Superseded (written : Written) (name old : BlockName) : Prop :=
  ∃ (i j : Nat) (bytes bytes' : Bytes), i < j ∧ written[i]? = some (old, bytes) ∧ written[j]? = some (name, bytes') ∧
    Covers bytes' bytes

variable {written written' : Written} {name : BlockName} {blocks blocks' : Blocks} {copy : Copy} {o : SyncOp}
  {log : List SyncOp} {dir : Dir} {kept : Option Kept} {e : Effect} {a : Act} {s : World}

/-- A name's place among the blocks written. -/
theorem index_inj (once : (written.map Prod.fst).Nodup) {i j : Nat} {bytes bytes' : Bytes}
    (hi : written[i]? = some (name, bytes)) (hj : written[j]? = some (name, bytes')) : i = j := by
  have lt : i < (written.map Prod.fst).length := by
    rw [List.length_map]
    exact (List.getElem?_eq_some_iff.mp hi).1
  apply (List.getElem?_inj lt once).mp
  rw [List.getElem?_map, List.getElem?_map, hi, hj]
  rfl

/-- A new block covers itself, and hides no other. -/
theorem Covered.write {written : Written} {blocks : Blocks} (h : Covered written blocks)
    {name : BlockName} (unused : ∀ e ∈ written, e.1 ≠ name) (bytes : Bytes) :
    Covered (written ++ [(name, bytes)]) (blocks.insert name bytes) := by
  intro i name₁ bytes₁ hi
  rcases Nat.lt_or_ge i written.length with old | new
  · rw [List.getElem?_append_left old] at hi
    obtain ⟨j, name', bytes', le, hj, hlookup, covers⟩ := h i name₁ bytes₁ hi
    have ne : name' ≠ name := unused _ (List.mem_of_getElem? hj)
    refine ⟨j, name', bytes', le, ?_, ?_, covers⟩
    · rw [List.getElem?_append_left (List.getElem?_eq_some_iff.mp hj).1]
      exact hj
    · rw [AList.lookup_insert_ne ne]
      exact hlookup
  · have last : i = written.length := by
      have bound := (List.getElem?_eq_some_iff.mp hi).1
      rw [List.length_append, List.length_singleton] at bound
      omega
    have at_end : (written ++ [(name, bytes)])[i]? = some (name, bytes) := by
      rw [last]
      exact List.getElem?_concat_length
    rw [at_end] at hi
    cases hi
    exact ⟨i, name, bytes, Nat.le_refl _, at_end, AList.lookup_insert _, Or.inl rfl⟩

/-- Deleting a block that a newer one covers leaves every block covered. -/
theorem Covered.delete (h : Covered written blocks) (once : (written.map Prod.fst).Nodup) {old : BlockName}
    (superseded : Superseded written name old) : Covered written (blocks.erase old) := by
  -- what is covered by a block other than the deleted one still is
  have stays : ∀ {j : Nat} {name' : BlockName} {bytes' : Bytes}, written[j]? = some (name', bytes') →
      blocks.lookup name' = some bytes' → name' ≠ old →
        (blocks.erase old).lookup name' = some bytes' := by
    intro j name' bytes' _ hlookup ne
    rw [AList.lookup_erase_ne ne]
    exact hlookup
  intro i name₁ bytes₁ hi
  obtain ⟨j, name', bytes', le, hj, hlookup, covers⟩ := h i name₁ bytes₁ hi
  by_cases gone : name' = old
  · obtain ⟨k, l, b, b', lt, hk, hl, covers'⟩ := superseded
    subst gone
    have same := index_inj once hj hk
    subst same
    rw [hj] at hk
    cases hk
    obtain ⟨m, name₂, bytes₂, le₂, hm, hlookup₂, covers₂⟩ := h l name b' hl
    have ne : name₂ ≠ name' := by
      intro same
      rw [same] at hm
      have := index_inj once hm hj
      omega
    exact ⟨m, name₂, bytes₂, by omega, hm, stays hm hlookup₂ ne, covers₂.trans (covers'.trans covers)⟩
  · exact ⟨j, name', bytes', le, hj, stays hj hlookup gone, covers⟩

/-! ### Honest copies -/

/-- Block `name` was written, and everything in it satisfies `p`. -/
def WroteAll (written : Written) (name : BlockName) (p : SyncOp → Prop) : Prop :=
  ∃ ops, (name, some ops) ∈ written ∧ ∀ o ∈ ops, p o

theorem WroteAll.imp {p q : SyncOp → Prop} (h : WroteAll written name p) (more : ∀ e ∈ written, e ∈ written')
    (imp : ∀ o, p o → q o) : WroteAll written' name q := by
  obtain ⟨ops, mem, all⟩ := h
  exact ⟨ops, more _ mem, fun o ho => imp o (all o ho)⟩

/-- The names blocks were written under. -/
def Used (written : Written) (name : BlockName) : Prop := ∃ bytes, (name, bytes) ∈ written

/-- What is kept of a read reaches everything in the blocks it was made of. -/
def KeptWell (written : Written) (kept : Kept) : Prop :=
  ∃ log, kept.snapshot = some log ∧ CausalLog log ∧
    ∀ n ∈ kept.fingerprint, n ∈ kept.broken ∨ WroteAll written n (Held log)

/-- A name that is listed is accounted for: the copy holds it, or it would not read. -/
def Copy.Knows (copy : Copy) (n : BlockName) : Prop := n ∈ copy.store.held ∨ n ∈ copy.broken

/-- A block that is to be written over `old`: the document holds what is in it, and with anything to
delete it is a whole log that reaches all of that. -/
def Replaces (written : Written) (copy : Copy) (old : List BlockName) (bytes : Bytes) : Prop :=
  ∃ log, bytes = some log ∧ (∀ o ∈ log, Held copy.doc.applied o) ∧
    ∀ n ∈ old, CausalLog log ∧ WroteAll written n (Held log)

/-- What each phase has established. -/
def Copy.Underway (written : Written) (blocks : Blocks) (copy : Copy) : Prop :=
  match copy.phase with
  | .leased => True
  | .listed before _ => ∀ n ∈ before, Used written n
  | .begun before _ kept => (∀ n ∈ before, Used written n) ∧ ∀ n ∈ kept, copy.Knows n
  | .reading before _ left _ _ =>
      ∀ n ∈ before, Used written n ∧ (n ∈ blocks → n ∈ left ∨ copy.Knows n)
  | .loaded before => ∀ n ∈ before, Used written n ∧ (n ∈ blocks → copy.Knows n)
  | .idle => True
  | .due _ old bytes => Replaces written copy old bytes
  | .numbered old _ bytes => Replaces written copy old bytes
  | .deleting left name =>
      WroteAll written name (Held copy.doc.applied) ∧ ∀ n ∈ left, Superseded written name n

/-- What holds of every open copy. A block it holds was merged: what is in it is held by the document
or parked, and what is parked the store knows of. -/
structure Honest (written : Written) (blocks : Blocks) (copy : Copy) : Prop where
  held : ∀ n ∈ copy.store.held,
    WroteAll written n fun o => Held copy.doc.applied o ∨ o ∈ copy.doc.parked
  known : PendingKnown copy.store copy.doc
  underway : copy.Underway written blocks

/-- What others' steps do, seen from one copy: more blocks are written, and a name that was used does
not come back. -/
structure Later (written : Written) (blocks : Blocks) (written' : Written) (blocks' : Blocks) :
    Prop where
  more : ∃ new, written' = written ++ new
  gone : ∀ n, Used written n → n ∈ blocks' → n ∈ blocks

theorem Later.mem (h : Later written blocks written' blocks') : ∀ e ∈ written, e ∈ written' := by
  obtain ⟨new, rfl⟩ := h.more
  exact fun e he => List.mem_append_left _ he

theorem Later.used (h : Later written blocks written' blocks') {n : BlockName} (hn : Used written n) :
    Used written' n := by
  obtain ⟨bytes, mem⟩ := hn
  exact ⟨bytes, h.mem _ mem⟩

theorem Superseded.later {old : BlockName} (h : Superseded written name old) (new : Written) :
    Superseded (written ++ new) name old := by
  obtain ⟨i, j, bytes, bytes', lt, hi, hj, covers⟩ := h
  refine ⟨i, j, bytes, bytes', lt, ?_, ?_, covers⟩
  · rw [List.getElem?_append_left (List.getElem?_eq_some_iff.mp hi).1]
    exact hi
  · rw [List.getElem?_append_left (List.getElem?_eq_some_iff.mp hj).1]
    exact hj

theorem KeptWell.later {kept : Kept} (h : KeptWell written kept) (more : ∀ e ∈ written, e ∈ written') :
    KeptWell written' kept := by
  obtain ⟨log, same, causal, all⟩ := h
  exact ⟨log, same, causal, fun n hn => (all n hn).imp_right fun wrote => wrote.imp more fun _ => id⟩

theorem Replaces.later {old : List BlockName} {bytes : Bytes} (h : Replaces written copy old bytes)
    (more : ∀ e ∈ written, e ∈ written') : Replaces written' copy old bytes := by
  obtain ⟨log, same, held, all⟩ := h
  exact ⟨log, same, held, fun n hn => (all n hn).imp_right fun wrote => wrote.imp more fun _ => id⟩

theorem Copy.Underway.later (h : copy.Underway written blocks) (later : Later written blocks written' blocks') :
    copy.Underway written' blocks' := by
  unfold Copy.Underway at h ⊢
  split at h
  · trivial
  · exact fun n hn => later.used (h n hn)
  · exact ⟨fun n hn => later.used (h.1 n hn), h.2⟩
  · exact fun n hn => ⟨later.used (h n hn).1, fun there => (h n hn).2 (later.gone n (h n hn).1 there)⟩
  · exact fun n hn => ⟨later.used (h n hn).1, fun there => (h n hn).2 (later.gone n (h n hn).1 there)⟩
  · trivial
  · exact Replaces.later h later.mem
  · exact Replaces.later h later.mem
  · obtain ⟨new, rfl⟩ := later.more
    exact ⟨h.1.imp later.mem fun _ => id, fun n hn => (h.2 n hn).later new⟩

theorem Honest.later (h : Honest written blocks copy) (later : Later written blocks written' blocks') :
    Honest written' blocks' copy :=
  ⟨fun n hn => (h.held n hn).imp later.mem fun _ => id, h.known, h.underway.later later⟩

/-! ### The load -/

/-- A document that has grown forgets nothing it held or had parked. -/
theorem held_or_parked_commit {doc : LoroDoc} (deps : List (Writer × Nat)) (body : Nat)
    (h : Held doc.applied o ∨ o ∈ doc.parked) :
    Held (doc.commit deps body).applied o ∨ o ∈ (doc.commit deps body).parked := by
  rcases doc.commit_cases deps body with same | ⟨_, applied, parked⟩
  · rw [same]
    exact h
  · rw [applied, parked]
    exact h.imp_left fun held => held.append _

theorem held_or_parked_take {doc : LoroDoc} (ops : List SyncOp) (h : Held doc.applied o ∨ o ∈ doc.parked) :
    Held (doc.takeOps ops).applied o ∨ o ∈ (doc.takeOps ops).parked := by
  rcases h with held | parked
  · exact Or.inl (Nat.lt_of_lt_of_le held (doc.reach_le_takeOps ops o.writer))
  · exact doc.held_or_parked_takeOps (Or.inl parked)

/-- A whole log merged into an empty document is held to the last operation. -/
theorem held_of_seeded (causal : CausalLog log) (peer : Writer) (h : Held log o) :
    Held ((LoroDoc.open peer).takeOps log).applied o :=
  Nat.lt_of_lt_of_le h
    (takeIn_reaches .nil causal (fun _ ho => Or.inr (Or.inr ho)) o.writer)

theorem parked_of_seeded (causal : CausalLog log) (peer : Writer) :
    ((LoroDoc.open peer).takeOps log).parked = [] := by
  apply List.eq_nil_iff_forall_not_mem.mpr
  intro o parked
  rcases LoroDoc.mem_of_takeOps_parked parked with none | mem
  · cases none
  · exact not_held_of_parked parked (held_of_seeded causal peer (causal.held mem))

/-- A copy that starts from what was kept holds what it says it holds. -/
theorem honest_seeded {kept : Kept} {peer : Writer} (well : KeptWell written kept)
    (snapshot : kept.snapshot = some log) (held : copy.store.held = Copy.keptHeld kept)
    (doc : copy.doc = (LoroDoc.open peer).takeOps log) (underway : copy.Underway written blocks) :
    Honest written blocks copy := by
  obtain ⟨log', same, causal, all⟩ := well
  rw [snapshot] at same
  cases same
  refine ⟨fun n hn => ?_, fun o ho => ?_, underway⟩
  · rw [held] at hn
    obtain ⟨listed, reads⟩ := Finset.mem_filter.mp hn
    have wrote := (all n listed).resolve_left reads
    refine wrote.imp (fun _ he => he) fun o ho => Or.inl ?_
    rw [doc]
    exact held_of_seeded causal peer ho
  · rw [doc, parked_of_seeded causal peer] at ho
    cases ho

/-- A pass that starts from nothing. -/
theorem honest_bare {before : Finset BlockName} {again : Bool} (used : ∀ n ∈ before, Used written n) :
    Honest written blocks (copy.beginBare dir before again) := by
  refine ⟨fun n hn => ?_, fun o ho => ?_, used, fun n hn => ?_⟩
  · cases hn
  · cases ho
  · cases hn

/-- With every import resolved, the document holds everything in the blocks the copy holds. -/
theorem Honest.resolved (h : Honest written blocks copy) (resolved : copy.store.hasUnresolvedImports copy.doc = false)
    {n : BlockName} (hn : n ∈ copy.store.held) : WroteAll written n (Held copy.doc.applied) := by
  refine (h.held n hn).imp (fun _ he => he) fun o ho => ?_
  rcases ho with held | parked
  · exact held
  · exact held_of_recorded resolved (h.known o parked)

theorem honest_hit (well : ∀ k, kept = some k → KeptWell written k) (hstep : copy.hit dir kept = some e) :
    Honest written e.dir.blocks e.copy := by
  unfold Copy.hit at hstep
  split at hstep
  · rename_i k hphase
    split at hstep
    · split at hstep
      · cases hstep
      · rename_i hmerge
        obtain ⟨log, snapshot, rfl, _⟩ := LoroDoc.mergeReport_cases hmerge
        split at hstep <;> cases hstep
        exact honest_seeded (well k rfl) snapshot rfl rfl trivial
    · cases hstep
  · cases hstep

section

variable (h : Honest written dir.blocks copy)
include h

theorem honest_beginPass {base : Bool} (well : ∀ k, kept = some k → KeptWell written k)
    (hstep : copy.beginPass dir kept base = some e) : Honest written e.dir.blocks e.copy := by
  unfold Copy.beginPass at hstep
  split at hstep
  · rename_i before again hphase
    have used := h.underway
    rw [Copy.Underway, hphase] at used
    split at hstep
    · rename_i k
      split at hstep
      · split at hstep
        · cases hstep
          exact honest_bare used
        · rename_i hmerge
          obtain ⟨log, snapshot, rfl, _⟩ := LoroDoc.mergeReport_cases hmerge
          split at hstep <;> cases hstep
          · refine honest_seeded (well k rfl) snapshot rfl rfl ⟨used, fun n hn => ?_⟩
            by_cases reads : n ∈ k.broken
            · exact Or.inr reads
            · exact Or.inl (Finset.mem_filter.mpr ⟨hn, reads⟩)
          · exact honest_bare used
      · cases hstep
    · cases hstep
      exact honest_bare used
  · cases hstep

theorem honest_enlist (hstep : copy.enlist dir = some e) : Honest written e.dir.blocks e.copy := by
  unfold Copy.enlist at hstep
  split at hstep <;> cases hstep
  rename_i before again kept hphase
  have known := h.underway
  rw [Copy.Underway, hphase] at known
  refine ⟨h.held, h.known, fun n hn => ⟨known.1 n hn, fun there => ?_⟩⟩
  by_cases already : n ∈ kept
  · exact Or.inr (known.2 n already)
  · exact Or.inl (List.mem_filter.mpr ⟨AList.mem_keys.mp there, decide_eq_true already⟩)

/-- A block merged: what is in it is held or parked, and what is parked is recorded. -/
theorem honest_read {unread : Bool}
    (backed : ∀ name bytes, dir.blocks.lookup name = some bytes → (name, bytes) ∈ written)
    (hstep : copy.read dir unread = some e) : Honest written e.dir.blocks e.copy := by
  unfold Copy.read at hstep
  split at hstep
  · rename_i before again name left vanished grew hphase
    have todo := h.underway
    rw [Copy.Underway, hphase] at todo
    -- a block that is not merged is listed as broken
    have skipped : Honest written dir.blocks
        { copy with
          broken := copy.broken ++ [name], phase := .reading before again left vanished grew } := by
      refine ⟨h.held, h.known, fun n hn => ⟨(todo n hn).1, fun there => ?_⟩⟩
      rcases (todo n hn).2 there with mem | held | broken
      · rcases List.mem_cons.mp mem with rfl | rest
        · exact Or.inr (Or.inr (List.mem_append_right _ (List.mem_singleton_self _)))
        · exact Or.inl rest
      · exact Or.inr (Or.inl held)
      · exact Or.inr (Or.inr (List.mem_append_left _ broken))
    split at hstep
    · rename_i gone
      cases hstep
      refine ⟨h.held, h.known, fun n hn => ⟨(todo n hn).1, fun there => ?_⟩⟩
      rcases (todo n hn).2 there with mem | knows
      · rcases List.mem_cons.mp mem with rfl | rest
        · exact absurd there (AList.lookup_eq_none.mp gone)
        · exact Or.inl rest
      · exact Or.inr knows
    · rename_i bytes hlookup
      split at hstep
      · cases hstep
        exact skipped
      · split at hstep
        · cases hstep
          exact skipped
        · rename_i hmerge
          obtain ⟨ops, rfl, rfl, rfl⟩ := LoroDoc.mergeReport_cases hmerge
          cases hstep
          refine ⟨fun n hn => ?_, pendingKnown_takeOps h.known ops rfl,
            fun n hn => ⟨(todo n hn).1, fun there => ?_⟩⟩
          · rcases Finset.mem_insert.mp hn with rfl | old
            · exact ⟨ops, backed _ _ hlookup, fun o ho => copy.doc.held_or_parked_takeOps (Or.inr ho)⟩
            · exact (h.held n old).imp (fun _ he => he) fun o ho => held_or_parked_take ops ho
          · rcases (todo n hn).2 there with mem | held | broken
            · rcases List.mem_cons.mp mem with rfl | rest
              · exact Or.inr (Or.inl (Finset.mem_insert_self _ _))
              · exact Or.inl rest
            · exact Or.inr (Or.inl (Finset.mem_insert_of_mem held))
            · exact Or.inr (Or.inr broken)
  · cases hstep

theorem honest_learn (hstep : copy.learn dir = some e) : Honest written e.dir.blocks e.copy := by
  unfold Copy.learn at hstep
  split at hstep
  · rename_i before again vanished grew hphase
    have todo := h.underway
    rw [Copy.Underway, hphase] at todo
    cases hstep
    simp only [Effect.quiet]
    have knows : ∀ n ∈ before, Used written n ∧ (n ∈ dir.blocks → copy.Knows n) := by
      intro n hn
      refine ⟨(todo n hn).1, fun there => ((todo n hn).2 there).resolve_left ?_⟩
      exact List.not_mem_nil
    refine ⟨?_, ?_, ?_⟩
    · split <;> exact h.held
    · split <;> exact h.known
    · by_cases more : vanished ∧ ¬ again
      · simp only [Copy.Underway, if_pos more]
        exact fun n hn => (knows n hn).1
      · simp only [Copy.Underway, if_neg more]
        split <;> exact knows
  · cases hstep

/-- What is kept was read whole: the listing is what it was, and a name that was used does not come
back, so the pass met every block of it. -/
theorem honest_keep {same : Bool} (hstep : copy.keep dir same = some e) :
    Honest written e.dir.blocks e.copy ∧ ∀ k, e.kept = some k → KeptWell written k := by
  unfold Copy.keep at hstep
  split at hstep
  · rename_i before hphase
    have knows := h.underway
    rw [Copy.Underway, hphase] at knows
    split at hstep
    · rename_i whole
      cases hstep
      refine ⟨⟨h.held, h.known, trivial⟩, fun k hk => ?_⟩
      cases hk
      refine ⟨copy.doc.applied, rfl, copy.doc.causal, fun n hn => ?_⟩
      have there : n ∈ dir.blocks := by
        have listed : n ∈ dir.blocks.keys.toFinset := by
          rw [whole.2.2.1]
          exact hn
        exact AList.mem_keys.mpr (List.mem_toFinset.mp listed)
      rcases (knows n hn).2 there with held | broken
      · exact Or.inr (h.resolved whole.2.2.2 held)
      · exact Or.inl broken
    · cases hstep
      exact ⟨⟨h.held, h.known, trivial⟩, fun k hk => nomatch hk⟩
  · cases hstep

end

/-! ### Flush and compaction -/

section

variable (h : Honest written dir.blocks copy)
include h

/-- A step that only makes the directory, from there to a phase with what it asks for. -/
theorem honest_made {io : Io} {r : Except String Unit} {store : BlockStore} {phase : Phase} (made : makeDir io (copy.here dir) = (r, store))
    (underway : Copy.Underway written store.dir.blocks { copy with store, phase }) :
    Honest written store.dir.blocks { copy with store, phase } := by
  have books := makeDir_books made
  have held : store.held = copy.store.held := books.held
  have pending : store.pending = copy.store.pending := books.pending
  refine ⟨?_, ?_, underway⟩
  · simpa only [held] using h.held
  · simpa only [PendingKnown, pending] using h.known

theorem honest_flush {io : Io} (hstep : copy.flush dir io = some e) : Honest written e.dir.blocks e.copy := by
  unfold Copy.flush at hstep
  split at hstep
  · rename_i hphase
    split at hstep
    · cases hstep
    · split at hstep
      all_goals
        rename_i store hmade
        cases hstep
      · exact honest_made h hmade (by simp only [Copy.Underway, hphase])
      · refine honest_made h hmade ⟨_, rfl, fun o ho => copy.doc.causal.held (mem_since.mp ho).1, fun n hn => ?_⟩
        cases hn
  · cases hstep

/-- A compaction that is let through: its snapshot reaches everything in the blocks it will delete. -/
theorem honest_compact {io : Io} (hstep : copy.compact dir io = some e) :
    Honest written e.dir.blocks e.copy := by
  unfold Copy.compact at hstep
  split at hstep
  · rename_i hphase
    split at hstep
    · cases hstep
    · rename_i resolved
      split at hstep
      all_goals
        rename_i store hmade
        cases hstep
      · exact honest_made h hmade (by simp only [Copy.Underway, hphase])
      · refine honest_made h hmade ⟨_, rfl, fun o ho => copy.doc.causal.held ho, fun n hn => ⟨copy.doc.causal, ?_⟩⟩
        have mem := of_decide_eq_true (List.mem_filter.mp hn).2
        rw [(makeDir_books hmade).held] at mem
        exact h.resolved (Bool.eq_false_iff.mpr resolved) mem
  · cases hstep

/-- The block is written: everything it is to replace was written before it. -/
theorem honest_write (hstep : copy.write dir = some e)
    (later : Later written dir.blocks (written ++ e.wrote.toList) e.dir.blocks) :
    Honest (written ++ e.wrote.toList) e.dir.blocks e.copy := by
  unfold Copy.write at hstep
  split at hstep
  · rename_i old name bytes hphase
    have replaces := h.underway
    rw [Copy.Underway, hphase] at replaces
    obtain ⟨log, rfl, held, all⟩ := replaces
    cases hstep
    have moved := h.later later
    refine ⟨moved.held, moved.known, ⟨log, ?_, held⟩, fun n hn => ?_⟩
    · exact List.mem_append_right _ (List.mem_singleton_self _)
    · obtain ⟨causal, ops, mem, reaches⟩ := all n hn
      obtain ⟨i, hi⟩ := List.getElem?_of_mem mem
      have lt := (List.getElem?_eq_some_iff.mp hi).1
      refine ⟨i, written.length, some ops, some log, lt, ?_, List.getElem?_concat_length,
        Or.inr ⟨log, rfl, causal, fun ops' hops' => ?_⟩⟩
      · rw [List.getElem?_append_left lt]
        exact hi
      · cases hops'
        exact reaches
  · cases hstep

theorem honest_delete {stuck : Bool} (hstep : copy.delete dir stuck = some e) :
    Honest written e.dir.blocks e.copy := by
  unfold Copy.delete at hstep
  split at hstep
  · rename_i old left name hphase
    have todo := h.underway
    rw [Copy.Underway, hphase] at todo
    cases hstep
    exact ⟨fun n hn => h.held n (Finset.mem_of_mem_erase hn), h.known, todo.1,
      fun n hn => todo.2 n (.tail _ hn)⟩
  · cases hstep

end

/-- The new block is remembered: the document holds what is in it. -/
theorem honest_remember {copy' : Copy} (h : Honest written blocks copy)
    (wrote : WroteAll written name (Held copy.doc.applied)) (doc : copy'.doc = copy.doc)
    (held : copy'.store.held = insert name copy.store.held) (pending : copy'.store.pending = copy.store.pending)
    (phase : copy'.phase = .idle) : Honest written blocks copy' := by
  refine ⟨fun n hn => ?_, ?_, ?_⟩
  · rw [held] at hn
    rw [doc]
    rcases Finset.mem_insert.mp hn with rfl | old
    · exact wrote.imp (fun _ he => he) fun _ => Or.inl
    · exact h.held n old
  · rw [PendingKnown, doc, pending]
    exact h.known
  · rw [Copy.Underway, phase]
    trivial

theorem honest_save (h : Honest written dir.blocks copy) (hstep : copy.save dir = some e) :
    Honest written e.dir.blocks e.copy := by
  unfold Copy.save at hstep
  split at hstep
  · rename_i name hphase
    have todo := h.underway
    rw [Copy.Underway, hphase] at todo
    cases hstep
    exact honest_remember h todo.1 rfl rfl rfl rfl
  · cases hstep

theorem honest_fail (h : Honest written dir.blocks copy) (hstep : copy.fail dir = some e) :
    Honest written e.dir.blocks e.copy := by
  unfold Copy.fail at hstep
  split at hstep
  · cases hstep
    exact ⟨h.held, h.known, trivial⟩
  · rename_i name hphase
    have todo := h.underway
    rw [Copy.Underway, hphase] at todo
    cases hstep
    exact honest_remember h todo.1 rfl rfl rfl rfl
  · cases hstep

/-! ### A step of a copy -/

section

variable (h : Honest written dir.blocks copy)
include h

theorem honest_list (backed : ∀ name bytes, dir.blocks.lookup name = some bytes → (name, bytes) ∈ written)
    (hstep : copy.list dir = some e) : Honest written e.dir.blocks e.copy := by
  unfold Copy.list at hstep
  split at hstep <;> cases hstep
  refine ⟨h.held, h.known, fun n hn => ?_⟩
  obtain ⟨bytes, hlookup⟩ := Option.isSome_iff_exists.mp
    (AList.lookup_isSome.mpr (AList.mem_keys.mpr (List.mem_toFinset.mp hn)))
  exact ⟨bytes, backed n bytes hlookup⟩

theorem honest_edit {deps : List (Writer × Nat)} {body : Nat}
    (hstep : copy.edit dir deps body = some e) : Honest written e.dir.blocks e.copy := by
  unfold Copy.edit at hstep
  split at hstep
  · rename_i hphase
    cases hstep
    refine ⟨fun n hn => ?_, fun o ho => ?_, ?_⟩
    · exact (h.held n hn).imp (fun _ he => he) fun o ho => held_or_parked_commit deps body ho
    · rcases copy.doc.commit_cases deps body with same | ⟨_, _, parked⟩
      · simp only [Effect.quiet, same] at ho
        exact h.known o ho
      · simp only [Effect.quiet, parked] at ho
        exact h.known o ho
    · simp only [Effect.quiet, Copy.Underway, hphase]
  · cases hstep

theorem honest_merge {bytes : Bytes} (hstep : copy.merge dir bytes = some e) :
    Honest written e.dir.blocks e.copy := by
  unfold Copy.merge at hstep
  split at hstep
  · rename_i hphase
    split at hstep
    · cases hstep
    · rename_i hmerge
      obtain ⟨ops, rfl, rfl, rfl⟩ := LoroDoc.mergeReport_cases hmerge
      cases hstep
      refine ⟨fun n hn => ?_, pendingKnown_takeOps h.known ops rfl, ?_⟩
      · exact (h.held n hn).imp (fun _ he => he) fun o ho => held_or_parked_take ops ho
      · simp only [Effect.quiet, Copy.Underway, hphase]
  · cases hstep

theorem honest_number (hstep : copy.number dir = some e) : Honest written e.dir.blocks e.copy := by
  unfold Copy.number at hstep
  split at hstep
  · rename_i kind old bytes hphase
    have replaces := h.underway
    rw [Copy.Underway, hphase] at replaces
    cases hstep
    obtain ⟨log, same, held, all⟩ := replaces
    exact ⟨h.held, h.known, log, same, held, fun n hn => all n (List.mem_of_mem_filter hn)⟩
  · cases hstep

end

/-- Only `write` writes a block, and only `keep` keeps anything. -/
theorem step_quiet (hstep : copy.step dir kept a = some e) :
    a = .write ∨ (∃ same, a = .keep same) ∨ (e.wrote = none ∧ e.kept = none) := by
  cases a with
  | write => exact .inl rfl
  | keep same => exact .inr (.inl ⟨same, rfl⟩)
  | list | hit | beginPass | enlist | read | learn | edit | merge | flush | compact | number | delete | save | fail =>
      refine .inr (.inr ?_)
      simp only [Copy.step, Copy.list, Copy.hit, Copy.beginPass, Copy.enlist, Copy.read, Copy.learn, Copy.edit,
        Copy.merge, Copy.flush, Copy.compact, Copy.number, Copy.delete, Copy.save, Copy.fail] at hstep
      repeat' split at hstep
      all_goals cases hstep
      all_goals exact ⟨rfl, rfl⟩

/-- One step of an honest copy leaves it honest, and what its process keeps is kept well. -/
theorem honest_step (h : Honest written dir.blocks copy) (well : ∀ k, kept = some k → KeptWell written k)
    (backed : ∀ name bytes, dir.blocks.lookup name = some bytes → (name, bytes) ∈ written)
    (later : Later written dir.blocks (written ++ e.wrote.toList) e.dir.blocks)
    (hstep : copy.step dir kept a = some e) : Honest (written ++ e.wrote.toList) e.dir.blocks e.copy ∧
      ∀ k, e.kept = some k → KeptWell (written ++ e.wrote.toList) k := by
  -- with nothing written and nothing kept, honesty over the old blocks is enough
  have still (quiet : e.wrote = none ∧ e.kept = none) (honest : Honest written e.dir.blocks e.copy) :
      Honest (written ++ e.wrote.toList) e.dir.blocks e.copy ∧
        ∀ k, e.kept = some k → KeptWell (written ++ e.wrote.toList) k := by
    rw [quiet.1, quiet.2]
    refine ⟨?_, fun k hk => by cases hk⟩
    rw [Option.toList_none, List.append_nil]
    exact honest
  obtain rfl | ⟨same, rfl⟩ | quiet := step_quiet hstep
  · refine ⟨honest_write h hstep later, fun k hk => ?_⟩
    simp only [Copy.step, Copy.write] at hstep
    split at hstep <;> cases hstep
    cases hk
  · obtain ⟨honest, keptWell⟩ := honest_keep h hstep
    simp only [Copy.step, Copy.keep] at hstep
    split at hstep
    · split at hstep <;> cases hstep
      · exact ⟨by simpa using honest, by simpa using keptWell⟩
      · exact still ⟨rfl, rfl⟩ honest
    · cases hstep
  · cases a with
    | list => exact still quiet (honest_list h backed hstep)
    | hit => exact still quiet (honest_hit well hstep)
    | beginPass base => exact still quiet (honest_beginPass h well hstep)
    | enlist => exact still quiet (honest_enlist h hstep)
    | read unread => exact still quiet (honest_read h backed hstep)
    | learn => exact still quiet (honest_learn h hstep)
    | keep same => exact still quiet (honest_keep h hstep).1
    | edit deps body => exact still quiet (honest_edit h hstep)
    | merge bytes => exact still quiet (honest_merge h hstep)
    | flush io => exact still quiet (honest_flush h hstep)
    | compact io => exact still quiet (honest_compact h hstep)
    | number => exact still quiet (honest_number h hstep)
    | write => exact still quiet (by simpa [quiet.1] using honest_write h hstep later)
    | delete stuck => exact still quiet (honest_delete h hstep)
    | save => exact still quiet (honest_save h hstep)
    | fail => exact still quiet (honest_fail h hstep)

/-! ### Runs -/

/-- What holds after every careful run. -/
structure Safe (s : World) : Prop where
  named : Named s
  covered : Covered s.written s.dir.blocks
  honest : ∀ {c copy}, s.copies.lookup c = some copy → Honest s.written s.dir.blocks copy
  kept : ∀ {p kept}, s.kept.lookup p = some kept → KeptWell s.written kept

theorem safe_start (dir : Dir) : Safe (start dir) := by
  refine ⟨named_start dir, ?_, ?_, ?_⟩
  · intro i name bytes hi
    have mem := List.mem_of_getElem? hi
    obtain ⟨entry, hentry, same⟩ := List.mem_map.mp mem
    cases same
    exact ⟨i, _, _, Nat.le_refl _, hi, AList.mem_lookup_iff.mpr hentry, Or.inl rfl⟩
  · intro c copy h
    cases h
  · intro p kept h
    cases h

/-- A step of one copy, seen from the others. -/
theorem later_of_step (h : Named s) {c : Nat} (hlookup : s.copies.lookup c = some copy)
    (hstep : copy.step s.dir (s.kept.lookup copy.proc) a = some e) :
    Later s.written s.dir.blocks (s.written ++ e.wrote.toList) e.dir.blocks := by
  obtain ⟨_, _, change⟩ := Copy.step_change hstep
  refine ⟨⟨_, rfl⟩, ?_⟩
  cases change with
  | still blocks ledgered wrote unnumbered =>
      rw [blocks]
      exact fun _ _ there => there
  | numbered kind due old bytes act phase dir wrote next =>
      rw [dir]
      exact fun _ _ there => there
  | wrote old name bytes phase blocks merged wrote next =>
      rintro n ⟨bytes', mem⟩ there
      rw [blocks] at there
      rcases (AList.mem_insert _).mp there with rfl | before
      · exact absurd rfl ((h.free hlookup phase).1 _ mem)
      · exact before
  | deleted gone left name phase kept blocks merged wrote next =>
      intro n _ there
      rcases blocks with same | erased
      · rw [same] at there
        exact there
      · rw [erased] at there
        exact (AList.mem_erase.mp there).2

theorem covered_of_step (h : Safe s) {c : Nat} (hlookup : s.copies.lookup c = some copy)
    (hstep : copy.step s.dir (s.kept.lookup copy.proc) a = some e) :
    Covered (s.written ++ e.wrote.toList) e.dir.blocks := by
  obtain ⟨_, _, change⟩ := Copy.step_change hstep
  have unwritten : e.wrote = none → s.written ++ e.wrote.toList = s.written := by
    intro none
    rw [none, Option.toList_none, List.append_nil]
  cases change with
  | still blocks ledgered wrote unnumbered =>
      rw [unwritten wrote, blocks]
      exact h.covered
  | numbered kind due old bytes act phase dir wrote next =>
      rw [unwritten wrote, dir]
      exact h.covered
  | wrote old name bytes phase blocks merged wrote next =>
      rw [wrote, blocks]
      exact h.covered.write (h.named.free hlookup phase).1 bytes
  | deleted gone left name phase kept blocks merged wrote next =>
      have todo := (h.honest hlookup).underway
      rw [Copy.Underway, phase] at todo
      rw [unwritten wrote]
      rcases blocks with same | erased
      · rw [same]
        exact h.covered
      · rw [erased]
        exact h.covered.delete h.named.once (todo.2 gone (.head _))

/-- Step lemma. -/
theorem safe_step {e : Event} (careful : Careful s e) (h : Safe s) : Safe (step s e) := by
  have named := named_step careful h.named
  rcases step_cases s e with same | ⟨c, proc, name, rfl, unopened, same⟩ |
    ⟨c, a, copy, eff, rfl, hlookup, hstep, same⟩ | ⟨c, rfl, same⟩
  · rw [same]
    exact h
  · rw [same] at named ⊢
    refine ⟨named, h.covered, fun {c' copy'} h' => ?_, h.kept⟩
    by_cases eq : c' = c
    · rw [eq, AList.lookup_insert] at h'
      cases h'
      exact ⟨fun n hn => absurd hn (Finset.notMem_empty n), fun o ho => absurd ho List.not_mem_nil, trivial⟩
    · rw [AList.lookup_insert_ne eq] at h'
      exact h.honest h'
  · have later := later_of_step h.named hlookup hstep
    obtain ⟨honest, keptWell⟩ :=
      honest_step (h.honest hlookup) (fun k hk => h.kept hk) h.named.backed later hstep
    rw [same] at named ⊢
    refine ⟨named, covered_of_step h hlookup hstep, fun {c' copy'} h' => ?_, fun {p k} hk => ?_⟩
    · by_cases eq : c' = c
      · rw [eq, s.lookup_after_self] at h'
        cases h'
        exact honest
      · rw [s.lookup_after_ne eff eq] at h'
        exact (h.honest h').later later
    · have old : ∀ {p k}, s.kept.lookup p = some k →
          KeptWell (s.written ++ eff.wrote.toList) k := fun hk => (h.kept hk).later later.mem
      cases hnew : eff.kept with
      | none =>
          simp only [World.after, hnew] at hk
          exact old hk
      | some new =>
          simp only [World.after, hnew] at hk
          by_cases eq : p = eff.copy.proc
          · rw [eq, AList.lookup_insert] at hk
            cases hk
            exact keptWell _ hnew
          · rw [AList.lookup_insert_ne eq] at hk
            exact old hk
  · rw [same] at named ⊢
    refine ⟨named, h.covered, fun {c' copy'} h' => ?_, h.kept⟩
    by_cases eq : c' = c
    · rw [eq, AList.lookup_erase] at h'
      cases h'
    · rw [AList.lookup_erase_ne eq] at h'
      exact h.honest h'

/-- Run lemma. -/
theorem safe_run (run : Runs step Careful (start dir) s) : Safe s :=
  run.invariant safe_step (safe_start dir)

/-! ### Nothing is lost -/

/-- All readable blocks of the directory, merged. -/
def merged (dir : Dir) : LoroDoc :=
  (readBlocks (fun _ => false) (.open 0) dir.blocks.entries).doc

theorem held_or_parked_merged {ops : List SyncOp} (hlookup : dir.blocks.lookup name = some (some ops)) (ho : o ∈ ops) :
    Held (merged dir).applied o ∨ o ∈ (merged dir).parked := by
  have acc := readBlocks_accounts (fun _ => false) 0 dir.blocks
  have listed : (⟨name, some ops⟩ : Sigma fun _ : BlockName => Bytes) ∈ dir.blocks.entries :=
    AList.mem_lookup_iff.mp hlookup
  obtain ⟨ops', hops', all⟩ := acc.named _ listed (acc.read _ listed rfl (by simp))
  cases hops'
  exact all o ho

/-- A causal log whose operations are all accounted for is reached by the merge. -/
theorem reach_le_merged (causal : CausalLog log)
    (accounted : ∀ o ∈ log, Held (merged dir).applied o ∨ o ∈ (merged dir).parked) (w : Writer) :
    reach log w ≤ reach (merged dir).applied w :=
  reach_le_of_accounted causal (readBlocks_accounts (fun _ => false) 0 dir.blocks).settled accounted w

theorem wrote_of_merged (h : Named s) (ho : o ∈ (merged s.dir).applied) :
    ∃ name ops, (name, some ops) ∈ s.written ∧ o ∈ ops := by
  have acc := readBlocks_accounts (fun _ => false) 0 s.dir.blocks
  obtain ⟨⟨name, bytes⟩, listed, ops, same, mem⟩ := acc.fromBlocks o (Or.inl ho)
  have mem_written := h.backed name bytes (AList.mem_lookup_iff.mpr listed)
  rw [show bytes = some ops from same] at mem_written
  exact ⟨name, ops, mem_written, mem⟩

/-- **Compaction loses nothing.** In every run in which open copies hold different names and no step
takes a name's last record, what merging the directory's blocks gives never shrinks: no writer's
operations come to reach less far, and where no two operations written bear one name, every operation
stays. -/
theorem compaction_loses_nothing {dir : Dir} {s s' : World}
    (run : Runs step Careful (start dir) s) (later : Runs step Careful s s') :
    (∀ w, reach (merged s.dir).applied w ≤ reach (merged s'.dir).applied w) ∧
      (Coherent {o | ∃ name ops, (name, some ops) ∈ s'.written ∧ o ∈ ops} →
        ∀ o ∈ (merged s.dir).applied, o ∈ (merged s'.dir).applied) := by
  have before := named_run run
  have after := safe_run (run.trans later)
  have reaches : ∀ w, reach (merged s.dir).applied w ≤ reach (merged s'.dir).applied w := by
    refine reach_le_merged (merged s.dir).causal fun o ho => ?_
    obtain ⟨name, ops, mem, hmem⟩ := wrote_of_merged before ho
    obtain ⟨i, hi⟩ := List.getElem?_of_mem (written_grows later _ mem)
    obtain ⟨_, name', bytes', _, _, hlookup, rfl | ⟨log, rfl, causal, covers⟩⟩ :=
      after.covered i name (some ops) hi
    · exact held_or_parked_merged hlookup hmem
    · -- the block is gone, and a whole log that reaches the operation is on disk
      left
      exact Nat.lt_of_lt_of_le (covers ops rfl o hmem)
        (reach_le_merged causal (fun o' ho' => held_or_parked_merged hlookup ho') o.writer)
  refine ⟨reaches, fun coherent => ?_⟩
  refine subset_of_reach_le coherent (merged s'.dir).causal (fun o ho => wrote_of_merged after.named ho)
    (merged s.dir).causal (fun o ho => ?_) reaches
  obtain ⟨name, ops, mem, hmem⟩ := wrote_of_merged before ho
  exact ⟨name, ops, written_grows later _ mem, hmem⟩

/-- A copy opens and writes. -/
def firstBlock : World := (opens 0 1 0 ++ writes 0 7).foldl step bare

/-- Another opens, writes, and compacts both blocks away. -/
def takeOver : List Event := opens 1 2 1 ++ writes 1 8 ++ compacts 1 2

theorem takeOver_keeps_firstBlock :
    (merged firstBlock.dir).applied ⊆ (merged (takeOver.foldl step firstBlock).dir).applied := by
  have first : Fits step Careful bare (opens 0 1 0 ++ writes 0 7) := by decide +kernel
  have second : Fits step Careful firstBlock takeOver := by decide +kernel
  refine fun o => (compaction_loses_nothing first.runs second.runs).2 ?_ o
  have named : ∀ e ∈ (takeOver.foldl step firstBlock).written,
      ∀ e' ∈ (takeOver.foldl step firstBlock).written, ∀ o ∈ e.2.getD [], ∀ o' ∈ e'.2.getD [],
        o.id = o'.id → o = o' := by
    decide +kernel
  rintro o ⟨name, ops, mem, ho⟩ o' ⟨name', ops', mem', ho'⟩
  exact named (name, some ops) mem (name', some ops') mem' o ho o' ho'

/-- Copy 3 has merged the block that writer 1's second holder gives the same name, and compacts. -/
def unread : List Event :=
  opens 0 10 0 ++ opens 1 1 0 ++ writes 1 7 ++ opens 3 2 1 ++ compacts 1 1 ++ writes 0 5 ++
    [.close 1] ++ opens 2 1 2 ++ writes 2 8

/-- Compaction does not keep every operation in every run in which open copies hold different names:
the block written under a name given out twice is deleted by a copy that has not read it. -/
theorem compaction_deletes_an_unread_block :
    ∃ s s', Runs step Apart bare s ∧ Runs step Apart s s' ∧
      ∃ o, o ∈ (merged s.dir).applied ∧ o ∉ (merged s'.dir).applied := by
  have first : Fits step Apart bare unread := by decide +kernel
  have second : Fits step Apart (unread.foldl step bare) (compacts 3 1) := by decide +kernel
  refine ⟨_, _, first.runs, second.runs, ⟨1, 1, [], 8⟩, ?_, ?_⟩
  · decide +kernel
  · decide +kernel

end Khor.Sync.SharedDir
