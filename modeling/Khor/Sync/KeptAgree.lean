/-
Module: Khor.Sync.KeptAgree
Purpose: A load from what was kept comes to what a plain read of the directory comes to. A document is told by the
  operations it was made of; a listing that is the same before and after a read has not changed between; and what is
  kept is a faithful read of a directory that stood there, of which every block still listed is still the same.
Trusted boundary: none
Main exports: MadeOf, Faithful, loadInner_faithful, kept_agrees, kept_differs
-/
import Khor.Sync.KeptReads

namespace Khor.Sync.KeptReads

/-! ### A document and the operations it was made of -/

/-- Everything the document holds or has parked is one of `ops`, everything of them is held or parked, and what is
  parked neither is held nor could be applied. -/
structure MadeOf (ops : Set SyncOp) (doc : LoroDoc) : Prop where
  within : ∀ o, o ∈ doc.applied ∨ o ∈ doc.parked → o ∈ ops
  accounted : ∀ o ∈ ops, Held doc.applied o ∨ o ∈ doc.parked
  settled : ∀ o ∈ doc.parked, ¬ Ready doc.applied o
  waiting : ∀ o ∈ doc.parked, ¬ Held doc.applied o

theorem madeOf_opened (peer : Writer) : MadeOf ∅ (LoroDoc.open peer) where
  within := by rintro o (mem | mem) <;> cases mem
  accounted := by
    rintro o ⟨⟩
  settled := by
    rintro o ⟨⟩
  waiting := by
    rintro o ⟨⟩

variable {known : Set SyncOp} {doc : LoroDoc}

theorem MadeOf.takeOps (made : MadeOf known doc) (ops : List SyncOp) :
    MadeOf (known ∪ { o | o ∈ ops }) (doc.takeOps ops) where
  within := by
    rintro o (applied | parked)
    · obtain old | wait | new := LoroDoc.mem_of_mem_takeOps applied
      · exact .inl (made.within o (.inl old))
      · exact .inl (made.within o (.inr wait))
      · exact .inr new
    · obtain wait | new := LoroDoc.mem_of_takeOps_parked parked
      · exact .inl (made.within o (.inr wait))
      · exact .inr new
  accounted := by
    rintro o (old | new)
    · obtain held | wait := made.accounted o old
      · exact .inl (Nat.lt_of_lt_of_le held (doc.reach_le_takeOps ops o.writer))
      · exact doc.held_or_parked_takeOps (.inl wait)
    · exact doc.held_or_parked_takeOps (.inr new)
  settled := fun o parked => takeIn_settled parked
  waiting := fun o parked => not_held_of_parked parked

section Same

variable {ops : Set SyncOp} {doc other : LoroDoc}

section

variable (made : MadeOf ops doc)
include made

/-- Documents made of the same operations reach equally far. -/
theorem MadeOf.reach_le (made' : MadeOf ops other) (w : Writer) : reach other.applied w ≤ reach doc.applied w :=
  reach_le_of_accounted other.causal made.settled (fun o mem => made.accounted o (made'.within o (.inl mem))) w

theorem MadeOf.reach_eq (made' : MadeOf ops other) (w : Writer) : reach doc.applied w = reach other.applied w :=
  Nat.le_antisymm (made'.reach_le made w) (made.reach_le made' w)

theorem MadeOf.held_iff (made' : MadeOf ops other) (o : SyncOp) :
    Held doc.applied o ↔ Held other.applied o := by
  unfold Held
  rw [made.reach_eq made']

theorem MadeOf.applied_iff (coherent : Coherent ops) (o : SyncOp) :
    o ∈ doc.applied ↔ o ∈ ops ∧ Held doc.applied o := by
  constructor
  · intro mem
    exact ⟨made.within o (.inl mem), doc.causal.held mem⟩
  · rintro ⟨mem, held⟩
    exact mem_of_held coherent doc.causal (fun o mem => made.within o (.inl mem)) mem held

theorem MadeOf.parked_iff (o : SyncOp) : o ∈ doc.parked ↔ o ∈ ops ∧ ¬ Held doc.applied o := by
  constructor
  · intro mem
    exact ⟨made.within o (.inr mem), made.waiting o mem⟩
  · rintro ⟨mem, waits⟩
    exact (made.accounted o mem).resolve_left waits

/-- Where operations are named once, they say what is applied and what waits, whatever order they came in. -/
theorem MadeOf.same (made' : MadeOf ops other) (coherent : Coherent ops) :
    (∀ o, o ∈ doc.applied ↔ o ∈ other.applied) ∧ (∀ o, o ∈ doc.parked ↔ o ∈ other.parked) ∧
      doc.version.Same other.version := by
  refine ⟨fun o => ?_, fun o => ?_, ?_⟩
  · rw [made.applied_iff coherent, made'.applied_iff coherent, made.held_iff made']
  · rw [made.parked_iff, made'.parked_iff, made.held_iff made']
  · rw [VersionVector.same_iff]
    intro w
    rw [LoroDoc.upTo_version, LoroDoc.upTo_version, made.reach_eq made']

/-- A snapshot of a document with nothing parked makes the same document again, whole. -/
theorem MadeOf.snapshot (whole : doc.parked = []) (peer : Writer) :
    MadeOf ops ((LoroDoc.open peer).takeOps doc.applied) ∧ ((LoroDoc.open peer).takeOps doc.applied).parked = [] := by
  have again := (madeOf_opened peer).takeOps doc.applied
  have reaches (w : Writer) : reach doc.applied w ≤ reach ((LoroDoc.open peer).takeOps doc.applied).applied w :=
    reach_le_of_accounted doc.causal again.settled (fun o mem => again.accounted o (.inr mem)) w
  have empty : ((LoroDoc.open peer).takeOps doc.applied).parked = [] := by
    rw [List.eq_nil_iff_forall_not_mem]
    intro o parked
    have mem : o ∈ doc.applied := (again.within o (.inr parked)).resolve_left (Set.notMem_empty o)
    exact again.waiting o parked (Nat.lt_of_lt_of_le (doc.causal.held mem) (reaches o.writer))
  refine ⟨⟨?_, ?_, again.settled, again.waiting⟩, empty⟩
  · rintro o mem
    have old := (again.within o mem).resolve_left (Set.notMem_empty o)
    exact made.within o (.inl old)
  · intro o mem
    obtain held | parked := made.accounted o mem
    · exact .inl (Nat.lt_of_lt_of_le held (reaches o.writer))
    · rw [whole] at parked
      cases parked

end

end Same

/-! ### Pending ends -/

theorem widen_stop {spans : List ImportSpan} {o : SyncOp} {span : ImportSpan} (mem : span ∈ widen spans o) :
    (∃ old ∈ spans, old.writer = span.writer ∧ old.stop = span.stop) ∨
      (o.writer = span.writer ∧ span.stop = o.counter + 1) := by
  induction spans with
  | nil =>
      obtain rfl := List.mem_singleton.mp mem
      exact .inr ⟨rfl, rfl⟩
  | cons first rest ih =>
      unfold widen at mem
      split at mem
      · rename_i same
        obtain rfl | later := List.mem_cons.mp mem
        · obtain le | le := Nat.le_total (o.counter + 1) first.stop
          · exact .inl ⟨first, .head _, rfl, (Nat.max_eq_left le).symm⟩
          · exact .inr ⟨same.symm, Nat.max_eq_right le⟩
        · exact .inl ⟨span, .tail _ later, rfl, rfl⟩
      · obtain rfl | later := List.mem_cons.mp mem
        · exact .inl ⟨span, .head _, rfl, rfl⟩
        · obtain ⟨old, there, same⟩ | last := ih later
          · exact .inl ⟨old, .tail _ there, same⟩
          · exact .inr last

/-- A reported range ends behind an operation it reports. -/
theorem spansOf_stop {ops : List SyncOp} {span : ImportSpan} (mem : span ∈ spansOf ops) :
    ∃ o ∈ ops, o.writer = span.writer ∧ span.stop = o.counter + 1 := by
  have fold : ∀ (ops : List SyncOp) (spans : List ImportSpan), span ∈ ops.foldl widen spans →
      (∃ old ∈ spans, old.writer = span.writer ∧ old.stop = span.stop) ∨
        ∃ o ∈ ops, o.writer = span.writer ∧ span.stop = o.counter + 1 := by
    intro ops
    induction ops with
    | nil => exact fun spans mem => .inl ⟨span, mem, rfl, rfl⟩
    | cons o ops ih =>
        intro spans mem
        obtain ⟨old, there, writer, stop⟩ | ⟨p, there, same⟩ := ih _ mem
        · obtain ⟨old', there', writer', stop'⟩ | ⟨writer', stop'⟩ := widen_stop there
          · exact .inl ⟨old', there', writer'.trans writer, stop'.trans stop⟩
          · exact .inr ⟨o, .head _, writer'.trans writer, stop.symm.trans stop'⟩
        · exact .inr ⟨p, .tail _ there, same⟩
  obtain ⟨_, none_, _⟩ | found := fold ops [] mem
  · cases none_
  · exact found

theorem rememberPending_stop {pending : Pending} {report : MergeReport} {w : Writer} {stop : Nat}
    (known : (rememberPending pending report).lookup w = some stop) :
    pending.lookup w = some stop ∨ ∃ span ∈ report.pending, span.writer = w ∧ span.stop = stop := by
  unfold rememberPending at known
  generalize report.pending = spans at known ⊢
  induction spans generalizing pending with
  | nil => exact .inl known
  | cons span spans ih =>
      obtain earlier | ⟨later, there, same⟩ := ih known
      · by_cases mine : w = span.writer
        · subst mine
          rw [AList.lookup_insert, Option.some.injEq] at earlier
          cases before : pending.lookup span.writer with
          | none =>
              rw [before, Option.getD_none, Nat.zero_max] at earlier
              exact .inr ⟨span, .head _, rfl, earlier⟩
          | some old =>
              rw [before, Option.getD_some] at earlier
              obtain le | le := Nat.le_total span.stop old
              · rw [Nat.max_eq_left le] at earlier
                exact .inl (congrArg some earlier)
              · rw [Nat.max_eq_right le] at earlier
                exact .inr ⟨span, .head _, rfl, earlier⟩
        · rw [AList.lookup_insert_ne mine] at earlier
          exact .inl earlier
      · exact .inr ⟨later, .tail _ there, same⟩

/-- The pending ends know what is parked, and each of them is the end of an operation that came in. -/
structure Tallied (ops : Set SyncOp) (pending : Pending) (doc : LoroDoc) : Prop where
  known : ∀ o ∈ doc.parked, Recorded pending o
  ends : ∀ w stop, pending.lookup w = some stop → ∃ o ∈ ops, o.writer = w ∧ stop = o.counter + 1

theorem Tallied.takeOps {pending : Pending} (tallied : Tallied known pending doc) (ops : List SyncOp) :
    Tallied (known ∪ { o | o ∈ ops }) (rememberPending pending (doc.reportOf ops)) (doc.takeOps ops) where
  known := by
    intro o parked
    apply recorded_rememberPending
    by_cases new : o ∈ ops
    · exact .inr (reported_spansOf (List.mem_filter.mpr ⟨parked, decide_eq_true new⟩))
    · exact .inl (tallied.known o ((LoroDoc.mem_of_takeOps_parked parked).resolve_right new))
  ends := by
    intro w stop there
    obtain old | ⟨span, reported, rfl, rfl⟩ := rememberPending_stop there
    · obtain ⟨o, mem, same⟩ := tallied.ends w stop old
      exact ⟨o, .inl mem, same⟩
    · obtain ⟨o, mem, same⟩ := spansOf_stop reported
      exact ⟨o, .inr (of_decide_eq_true (List.mem_filter.mp mem).2), same⟩

/-- There are unresolved imports exactly where something is parked. -/
theorem unresolved_iff {N : Type} {ops : Set SyncOp} {loaded : Loaded N} (made : MadeOf ops loaded.doc)
    (tallied : Tallied ops loaded.pending loaded.doc) :
    loaded.hasUnresolvedImports = true ↔ loaded.doc.parked ≠ [] := by
  unfold Loaded.hasUnresolvedImports
  rw [List.any_eq_true]
  constructor
  · rintro ⟨⟨w, stop⟩, mem, short⟩
    obtain ⟨o, there, rfl, rfl⟩ := tallied.ends w stop (AList.mem_lookup_iff.mpr mem)
    have behind : reach loaded.doc.applied o.writer < o.counter + 1 := by
      have short := of_decide_eq_true short
      rw [LoroDoc.get_version] at short
      exact Int.ofNat_lt.mp short
    obtain held | parked := made.accounted o there
    · exact absurd held (by unfold Held; omega)
    · exact List.ne_nil_of_mem parked
  · intro some_
    obtain ⟨o, parked⟩ := List.exists_mem_of_ne_nil _ some_
    obtain ⟨stop, there, less⟩ := tallied.known o parked
    refine ⟨⟨o.writer, stop⟩, AList.mem_lookup_iff.mp there, decide_eq_true ?_⟩
    have behind : reach loaded.doc.applied o.writer ≤ o.counter := Nat.le_of_not_lt (made.waiting o parked)
    rw [LoroDoc.get_version]
    exact Int.ofNat_lt.mpr (Nat.lt_of_le_of_lt behind less)

section Loads

variable {N : Type} [LinearOrder N]

/-! ### A pass over a directory that does not change -/

/-- The block reads and imports. -/
def Reads (dir : Directory N) (name : N) : Prop :=
  ∃ file ops, dir.get name = some file ∧ file.unread = false ∧ file.bytes = some ops

/-- The block stands there, and does not. -/
def Bad (dir : Directory N) (name : N) : Prop :=
  ∃ file, dir.get name = some file ∧ (file.unread = true ∨ file.bytes = none)

/-- The operations in some of the blocks. -/
def operationsOf (dir : Directory N) (names : List N) : Set SyncOp :=
  { o | ∃ name ∈ names, ∃ file ops, dir.get name = some file ∧ file.unread = false ∧ file.bytes = some ops ∧ o ∈ ops }

theorem operationsOf_snoc (dir : Directory N) (names : List N) (name : N) :
    operationsOf dir (names ++ [name]) = operationsOf dir names ∪ operationsOf dir [name] := by
  ext o
  simp only [operationsOf, List.mem_append, List.mem_singleton, Set.mem_ofPred_eq, Set.mem_union, exists_eq_left]
  constructor
  · rintro ⟨n, old | rfl, rest⟩
    · exact .inl ⟨n, old, rest⟩
    · exact .inr rest
  · rintro (⟨n, old, rest⟩ | rest)
    · exact ⟨n, .inl old, rest⟩
    · exact ⟨name, .inr rfl, rest⟩

/-- What a pass has made of the blocks `done`, from a document made of `known`. -/
structure Passed (dir : Directory N) (known : Set SyncOp) (done : List N) (acc : Imported N) : Prop where
  made : MadeOf (known ∪ operationsOf dir done) acc.doc
  tallied : Tallied (known ∪ operationsOf dir done) acc.pending acc.doc
  names : ∀ n, n ∈ acc.names ↔ n ∈ done ∧ Reads dir n
  broken : ∀ n, n ∈ acc.broken ↔ n ∈ done ∧ Bad dir n
  inOrder : acc.broken.Sublist done
  found : acc.vanished = false

variable {dir : Directory N} {name n : N} {dirs : Nat → Directory N} {peer : Writer} {file : File} {t : Nat}

theorem not_reads_of_bad (bad : Bad dir name) : ¬ Reads dir name := by
  obtain ⟨file, there, why⟩ := bad
  rintro ⟨file', ops, there', readable, imports⟩
  rw [there] at there'
  cases there'
  obtain unread | none_ := why
  · rw [unread] at readable
    cases readable
  · rw [none_] at imports
    cases imports

/-- A block that is not merged adds no operations. -/
theorem Passed.skip {done : List N} {acc : Imported N} (passed : Passed dir known done acc) (bad : Bad dir name) :
    Passed dir known (done ++ [name]) { acc with broken := acc.broken ++ [name] } := by
  have nothing : operationsOf dir (done ++ [name]) = operationsOf dir done := by
    rw [operationsOf_snoc, Set.union_eq_left]
    rintro o ⟨n, mem, file, ops, there, readable, imports, _⟩
    obtain rfl := List.mem_singleton.mp mem
    exact absurd ⟨file, ops, there, readable, imports⟩ (not_reads_of_bad bad)
  refine ⟨by rw [nothing]; exact passed.made, by rw [nothing]; exact passed.tallied, fun n => ?_, fun n => ?_, ?_,
    passed.found⟩
  · rw [passed.names, List.mem_append, List.mem_singleton]
    constructor
    · rintro ⟨mem, reads⟩
      exact ⟨.inl mem, reads⟩
    · rintro ⟨mem | rfl, reads⟩
      · exact ⟨mem, reads⟩
      · exact absurd reads (not_reads_of_bad bad)
  · rw [List.mem_append, passed.broken, List.mem_append, List.mem_singleton]
    constructor
    · rintro (⟨mem, why⟩ | rfl)
      · exact ⟨.inl mem, why⟩
      · exact ⟨.inr rfl, bad⟩
    · rintro ⟨mem | rfl, why⟩
      · exact .inl ⟨mem, why⟩
      · exact .inr rfl
  · exact passed.inOrder.append_right [name]

theorem Passed.step {dir : Directory N} {known : Set SyncOp} {done : List N} {acc : Imported N}
    (passed : Passed dir known done acc) {name : N} {file : File} (there : dir.get name = some file) :
    Passed dir known (done ++ [name]) (readBlock dir acc name) := by
  unfold readBlock
  simp only [there]
  cases unread : file.unread with
  | true =>
      simp only [if_true]
      exact passed.skip ⟨file, there, .inl unread⟩
  | false =>
      cases bytes : file.bytes with
      | none =>
          simp only [LoroDoc.mergeReport, Bool.false_eq_true, if_false]
          exact passed.skip ⟨file, there, .inr bytes⟩
      | some ops =>
          have added : known ∪ operationsOf dir (done ++ [name]) =
              (known ∪ operationsOf dir done) ∪ { o | o ∈ ops } := by
            have mine : operationsOf dir [name] = { o | o ∈ ops } := by
              ext o
              simp [operationsOf, there, unread, bytes]
            rw [operationsOf_snoc, mine, Set.union_assoc]
          have reads : Reads dir name := ⟨file, ops, there, unread, bytes⟩
          simp only [LoroDoc.mergeReport, Bool.false_eq_true, if_false]
          refine ⟨by rw [added]; exact passed.made.takeOps ops, by rw [added]; exact passed.tallied.takeOps ops,
            fun n => ?_, fun n => ?_, passed.inOrder.trans (List.sublist_append_left _ _), passed.found⟩
          · rw [Finset.mem_insert, passed.names, List.mem_append, List.mem_singleton]
            constructor
            · rintro (rfl | ⟨mem, ok⟩)
              · exact ⟨.inr rfl, reads⟩
              · exact ⟨.inl mem, ok⟩
            · rintro ⟨mem | rfl, ok⟩
              · exact .inr ⟨mem, ok⟩
              · exact .inl rfl
          · rw [passed.broken, List.mem_append, List.mem_singleton]
            constructor
            · rintro ⟨mem, why⟩
              exact ⟨.inl mem, why⟩
            · rintro ⟨mem | rfl, why⟩
              · exact ⟨mem, why⟩
              · exact absurd reads (not_reads_of_bad why)

/-- While the directory stays as it is, a pass reads all that is listed. -/
theorem readFrom_passed (names : List N) :
    ∀ (t : Nat) {done : List N} {acc : Imported N}, Passed dir known done acc → (∀ n ∈ names, ∃ file, dir.get n = some file) →
      (∀ u, t ≤ u → u < t + names.length → dirs u = dir) →
      Passed dir known (done ++ names) (readFrom dirs t names acc) := by
  induction names with
  | nil =>
      intro t done acc passed _ _
      simpa [readFrom] using passed
  | cons name names ih =>
      intro t done acc passed there still
      obtain ⟨file, is⟩ := there name (.head _)
      have now : dirs t = dir := still t (Nat.le_refl t) (by simp)
      have next := ih (t + 1) (passed.step is) (fun n mem => there n (.tail _ mem))
        (fun u le less => still u (by omega) (by rw [List.length_cons]; omega))
      rw [readFrom, now]
      simpa using next

/-! ### What a load comes to -/

/-- A load that says what a directory holds. -/
structure Faithful (dir : Directory N) (peer : Writer) (loaded : Loaded N) : Prop where
  peer : loaded.doc.peer = peer
  made : MadeOf (operations dir) loaded.doc
  tallied : Tallied (operations dir) loaded.pending loaded.doc
  onDisk : loaded.onDisk = loaded.doc.version
  held : ∀ n, n ∈ loaded.held ↔ Reads dir n
  broken : ∀ n, n ∈ loaded.broken ↔ Bad dir n
  once : loaded.broken.Nodup

theorem Faithful.agrees {a b : Loaded N} (fa : Faithful dir peer a) (fb : Faithful dir peer b)
    (coherent : Coherent (operations dir)) : Agrees a b := by
  obtain ⟨applied, waiting, version⟩ := fa.made.same fb.made coherent
  refine ⟨fa.peer.trans fb.peer.symm, applied, waiting, by rw [fa.onDisk, fb.onDisk]; exact version, ?_, ?_, ?_⟩
  · ext n
    rw [fa.held, fb.held]
  · refine (List.perm_ext_iff_of_nodup fa.once fb.once).mpr fun n => ?_
    rw [fa.broken, fb.broken]
  · rw [Bool.eq_iff_iff, unresolved_iff fa.made fa.tallied, unresolved_iff fb.made fb.tallied]
    simp only [ne_eq, List.eq_nil_iff_forall_not_mem, waiting]

/-- A base that says what those of a directory's blocks hold that it was made of. -/
structure Sound (dir : Directory N) (base : Base N) : Prop where
  names : ∀ n ∈ base.names, ∃ file, dir.get n = some file
  snapshot : ∃ doc : LoroDoc, base.snapshot = doc.snapshot ∧ doc.parked = [] ∧
    MadeOf (operationsOf dir base.names.toList) doc
  broken : ∀ n, n ∈ base.broken ↔ n ∈ base.names ∧ Bad dir n
  once : base.broken.Nodup

theorem operations_split (dir : Directory N) (names : Finset N) :
    operationsOf dir names.toList ∪ operationsOf dir (dir.keys.filter (· ∉ names)) = operations dir := by
  ext o
  simp only [operationsOf, operations, Set.mem_union, Set.mem_ofPred_eq, Finset.mem_toList, List.mem_filter,
    decide_eq_true_eq]
  constructor
  · rintro (⟨n, _, file, ops, there⟩ | ⟨n, _, file, ops, there⟩)
    · exact ⟨n, file, ops, there⟩
    · exact ⟨n, file, ops, there⟩
  · rintro ⟨n, file, ops, there, rest⟩
    by_cases mem : n ∈ names
    · exact .inl ⟨n, mem, file, ops, there, rest⟩
    · refine .inr ⟨n, ⟨SortedMap.mem_keys.mpr ?_, mem⟩, file, ops, there, rest⟩
      rw [there]
      rfl

theorem bad_or_reads (there : dir.get n = some file) : Bad dir n ∨ Reads dir n := by
  cases unread : file.unread with
  | true => exact .inl ⟨file, there, .inl unread⟩
  | false =>
      cases bytes : file.bytes with
      | none => exact .inl ⟨file, there, .inr bytes⟩
      | some ops => exact .inr ⟨file, ops, there, unread, bytes⟩

theorem mem_keys_of (there : dir.get n = some file) : n ∈ dir.keys := by
  rw [SortedMap.mem_keys, there]
  rfl

/-- A pass over what the base was not made of, onto the base, says what the directory holds. -/
theorem Passed.faithful {base : Base N} (sound : Sound dir base) {acc : Imported N}
    (passed : Passed dir (operationsOf dir base.names.toList) (dir.keys.filter (· ∉ base.names)) acc)
    (named : acc.doc.peer = peer) :
    Faithful dir peer (acc.loaded (heldOf base.names base.broken) base.broken) ∧ acc.vanished = false := by
  have made := passed.made
  have tallied := passed.tallied
  rw [operations_split] at made tallied
  refine ⟨⟨named, made, tallied, rfl, fun n => ?_, fun n => ?_, ?_⟩, passed.found⟩
  · simp only [Imported.loaded, heldOf, Finset.mem_union, Finset.mem_filter, passed.names, List.mem_filter,
      decide_eq_true_eq, sound.broken]
    constructor
    · rintro (⟨mem, fine⟩ | ⟨_, reads⟩)
      · obtain ⟨file, there⟩ := sound.names n mem
        exact (bad_or_reads there).resolve_left fun bad => fine ⟨mem, bad⟩
      · exact reads
    · intro reads
      by_cases mem : n ∈ base.names
      · exact .inl ⟨mem, fun both => not_reads_of_bad both.2 reads⟩
      · obtain ⟨file, _, there, _⟩ := id reads
        exact .inr ⟨⟨mem_keys_of there, mem⟩, reads⟩
  · simp only [Imported.loaded, List.mem_append, passed.broken, List.mem_filter, decide_eq_true_eq, sound.broken]
    constructor
    · rintro (⟨_, bad⟩ | ⟨_, bad⟩)
      · exact bad
      · exact bad
    · intro bad
      by_cases mem : n ∈ base.names
      · exact .inl ⟨mem, bad⟩
      · obtain ⟨file, there, _⟩ := id bad
        exact .inr ⟨⟨mem_keys_of there, mem⟩, bad⟩
  · have rest : acc.broken.Nodup := passed.inOrder.nodup (dir.nodup.filter _)
    refine List.nodup_append.mpr ⟨sound.once, rest, fun a old b new => ?_⟩
    rintro rfl
    have kept := ((sound.broken a).mp old).1
    have left := List.mem_filter.mp ((passed.broken a).mp new).1
    exact absurd kept (of_decide_eq_true left.2)

theorem readBlock_peer (dir : Directory N) (acc : Imported N) (name : N) :
    (readBlock dir acc name).doc.peer = acc.doc.peer := by
  unfold readBlock
  split
  · rfl
  · split
    · rfl
    · cases merge : acc.doc.mergeReport _ with
      | error why => rfl
      | ok merged =>
          obtain ⟨report, doc⟩ := merged
          obtain ⟨ops, _, rfl, _⟩ := LoroDoc.mergeReport_cases merge
          rfl

theorem readFrom_peer (dirs : Nat → Directory N) (names : List N) :
    ∀ (t : Nat) (acc : Imported N), (readFrom dirs t names acc).doc.peer = acc.doc.peer := by
  induction names with
  | nil => exact fun _ _ => rfl
  | cons name names ih => exact fun t acc => (ih (t + 1) _).trans (readBlock_peer (dirs t) acc name)

theorem readBlocks_faithful {base : Base N} (sound : Sound dir base)
    (made : MadeOf (operationsOf dir base.names.toList) doc) (whole : doc.parked = [])
    (still : ∀ u, t ≤ u → u < (readBlocks dirs t doc base.names).2 → dirs u = dir) :
    Faithful dir doc.peer ((readBlocks dirs t doc base.names).1.loaded (heldOf base.names base.broken) base.broken) ∧
      (readBlocks dirs t doc base.names).1.vanished = false := by
  have now : dirs t = dir := still t (Nat.le_refl t) (by simp only [readBlocks]; omega)
  have start : Passed dir (operationsOf dir base.names.toList) []
      { doc := doc, names := ∅, broken := [], pending := ∅, vanished := false } := by
    have nothing : operationsOf dir ([] : List N) = ∅ := by simp [operationsOf]
    refine ⟨by rw [nothing, Set.union_empty]; exact made, ⟨?_, ?_⟩, by simp, by simp, .slnil, rfl⟩
    · intro o parked
      simp [whole] at parked
    · intro w stop known
      simp at known
  have pass := readFrom_passed ((dirs t).keys.filter (· ∉ base.names)) (t + 1) start
    (fun n mem => by
      rw [now] at mem
      exact Option.isSome_iff_exists.mp (SortedMap.mem_keys.mp (List.mem_filter.mp mem).1))
    (fun u le less => still u (by omega) (by simpa only [readBlocks] using less))
  rw [List.nil_append] at pass
  have pass' : Passed dir (operationsOf dir base.names.toList) (dir.keys.filter (· ∉ base.names))
      (readBlocks dirs t doc base.names).1 := by
    simpa only [readBlocks, now] using pass
  exact pass'.faithful sound (readFrom_peer dirs _ _ _)

theorem sound_nothing (dir : Directory N) (snapshot : Bytes) (is : snapshot = (LoroDoc.open 0).snapshot) :
    Sound dir { snapshot := snapshot, names := ∅, broken := [] } where
  names := by simp
  snapshot := ⟨.open 0, is, rfl, by simpa [operationsOf] using madeOf_opened 0⟩
  broken := by simp
  once := List.nodup_nil

theorem readBare_faithful (still : ∀ u, t ≤ u → u < (readBare dirs t peer).2.2 → dirs u = dir) :
    Faithful dir peer (readBare dirs t peer).1 ∧ (readBare dirs t peer).2.1 = false :=
  readBlocks_faithful (sound_nothing dir _ rfl) (by simpa [operationsOf] using madeOf_opened peer) rfl still

theorem readOnce_faithful {base : Option (Base N)} (sound : ∀ b ∈ base, Sound dir b)
    (still : ∀ u, t ≤ u → u < (readOnce dirs t peer base).2.2 → dirs u = dir) :
    Faithful dir peer (readOnce dirs t peer base).1 ∧ (readOnce dirs t peer base).2.1 = false := by
  cases base with
  | none => exact readBare_faithful still
  | some base =>
      have fine := sound base rfl
      obtain ⟨doc, is, whole, made⟩ := fine.snapshot
      obtain ⟨again, whole'⟩ := made.snapshot whole peer
      have imports : (LoroDoc.open peer).mergeReport base.snapshot =
          .ok ((LoroDoc.open peer).reportOf doc.applied, (LoroDoc.open peer).takeOps doc.applied) := by
        rw [is]
        rfl
      have none_waits : ((LoroDoc.open peer).reportOf doc.applied).pending = [] := by
        simp only [LoroDoc.reportOf, whole', List.filter_nil]
        rfl
      simp only [readOnce, imports, none_waits, ne_eq, not_true_eq_false, if_false] at still ⊢
      exact readBlocks_faithful fine again whole' still

theorem readOnce_later (dirs : Nat → Directory N) (t : Nat) (peer : Writer) (base : Option (Base N)) :
    t < (readOnce dirs t peer base).2.2 := by
  have blocks : ∀ (doc : LoroDoc) (kept : Finset N), t < (readBlocks dirs t doc kept).2 := by
    intro doc kept
    simp only [readBlocks]
    omega
  have bare : t < (readBare dirs t peer).2.2 := blocks (.open peer) ∅
  cases base with
  | none => exact bare
  | some base =>
      cases merge : (LoroDoc.open peer).mergeReport base.snapshot with
      | error why =>
          simp only [readOnce, merge]
          exact bare
      | ok merged =>
          obtain ⟨report, doc⟩ := merged
          by_cases waits : report.pending = []
          · simp only [readOnce, merge, waits, ne_eq, not_true_eq_false, if_false]
            exact blocks doc base.names
          · simp only [readOnce, merge, waits, ne_eq, not_false_eq_true, if_true]
            exact bare

theorem loadInner_later (dirs : Nat → Directory N) (t : Nat) (peer : Writer) (base : Option (Base N)) :
    t < (loadInner dirs t peer base).2 := by
  have first := readOnce_later dirs t peer base
  unfold loadInner
  dsimp only
  split
  · exact first.trans (readOnce_later dirs _ peer none)
  · exact first

/-- A load during which the directory stays as it is says what it holds: nothing listed vanishes. -/
theorem loadInner_faithful {base : Option (Base N)} (sound : ∀ b ∈ base, Sound dir b)
    (still : ∀ u, t ≤ u → u < (loadInner dirs t peer base).2 → dirs u = dir) :
    Faithful dir peer (loadInner dirs t peer base).1 := by
  have upTo : (readOnce dirs t peer base).2.2 ≤ (loadInner dirs t peer base).2 := by
    unfold loadInner
    dsimp only
    split
    · exact (readOnce_later dirs _ peer none).le
    · exact Nat.le_refl _
  obtain ⟨faithful, found⟩ := readOnce_faithful sound fun u le less => still u le (less.trans_le upTo)
  unfold loadInner
  dsimp only
  rw [found]
  exact faithful

/-! ### What is kept -/

section History

variable {dirs : Nat → Directory N}

variable {stamp : Nat × Nat} {u kind : Nat}

theorem mem_fingerprint : (name, stamp) ∈ fingerprint dir ↔ Stands dir name stamp := by
  unfold fingerprint Stands
  rw [List.mem_filterMap]
  constructor
  · rintro ⟨⟨n, file⟩, mem, is⟩
    obtain ⟨s, stamped, same⟩ := Option.map_eq_some_iff.mp is
    cases same
    exact ⟨file, SortedMap.get_eq_some.mpr mem, stamped⟩
  · rintro ⟨file, there, stamped⟩
    exact ⟨(name, file), SortedMap.get_eq_some.mp there, by simp [stamped]⟩

/-- A file listed as it was before is the file it was. -/
theorem Lawful.still_there (lawful : Lawful dirs) (listed : ∀ e ∈ fingerprint (dirs u), e ∈ fingerprint (dirs t))
    (there : (dirs u).get n = some file) : (dirs t).get n = some file := by
  obtain ⟨stamp, stamped⟩ := lawful.stamped u n file there
  obtain ⟨file', there', stamped'⟩ := mem_fingerprint.mp (listed (n, stamp) (mem_fingerprint.mpr ⟨file, there, stamped⟩))
  rw [there', lawful.immutable t u n file' file there' there (stamped'.trans stamped.symm)]

/-- The same listing, the same directory. -/
theorem Lawful.same_dir (lawful : Lawful dirs)
    (same : ∀ name stamp, Stands (dirs t) name stamp ↔ Stands (dirs u) name stamp) : dirs t = dirs u := by
  have onto {t u : Nat} (same : ∀ name stamp, Stands (dirs u) name stamp → Stands (dirs t) name stamp) :
      ∀ n file, (dirs u).get n = some file → (dirs t).get n = some file := by
    intro n file there
    refine lawful.still_there (fun e mem => ?_) there
    exact mem_fingerprint.mpr (same e.1 e.2 (mem_fingerprint.mp mem))
  apply SortedMap.ext_get
  intro n
  refine Option.ext fun file => ⟨fun there => ?_, fun there => ?_⟩
  · exact onto (fun name stamp => (same name stamp).mp) n file there
  · exact onto (fun name stamp => (same name stamp).mpr) n file there

/-- The first moment a file stands there. -/
def Arrives (dirs : Nat → Directory N) (t : Nat) (name : N) (stamp : Nat × Nat) : Prop :=
  Stands (dirs t) name stamp ∧ ∀ u < t, ¬ Stands (dirs u) name stamp

/-- What stands there in the next moment and did not before has just arrived. -/
theorem Lawful.arrives (lawful : Lawful dirs) (there : Stands (dirs (t + 1)) name stamp)
    (new : ¬ Stands (dirs t) name stamp) : Arrives dirs (t + 1) name stamp := by
  obtain ⟨file, found, stamped⟩ := there
  refine ⟨⟨file, found, stamped⟩, fun u before => ?_⟩
  cases lawful.changes t with
  | still same =>
      rw [same] at found
      exact absurd ⟨file, found, stamped⟩ new
  | written n put now fresh =>
      rw [now, SortedMap.get_put] at found
      split at found
      · rename_i is
        cases found
        exact is ▸ fresh u (Nat.le_of_lt_succ before) stamp stamped
      · exact absurd ⟨file, found, stamped⟩ new
  | deleted n snap s s' now v w old older less past stood first =>
      rw [now, SortedMap.get_erase] at found
      split at found
      · cases found
      · exact absurd ⟨file, found, stamped⟩ new

/-- The last file to arrive up to a moment stays: a block is overwritten by a later one, or deleted for a later
  snapshot's sake. -/
theorem Lawful.last_stays (lawful : Lawful dirs) (arrived : Arrives dirs t name stamp)
    (last : ∀ v, t < v → v ≤ u → ∀ n s, ¬ Arrives dirs v n s) : ∀ v, t ≤ v → v ≤ u → Stands (dirs v) name stamp := by
  intro v le
  induction v, le using Nat.le_induction with
  | base => exact fun _ => arrived.1
  | succ v le ih =>
      intro within
      have there := ih (by omega)
      by_contra gone
      obtain ⟨file, found, stamped⟩ := id there
      cases lawful.changes v with
      | still same =>
          rw [same] at gone
          exact gone there
      | written n put now fresh =>
          by_cases mine : name = n
          · subst mine
            have stands : (dirs (v + 1)).get name = some put := by rw [now, SortedMap.get_put, if_pos rfl]
            obtain ⟨s, is⟩ := lawful.stamped (v + 1) name put stands
            have new : ¬ Stands (dirs v) name s := fresh v (Nat.le_refl v) s is
            exact last (v + 1) (by omega) within name s (lawful.arrives ⟨put, stands, is⟩ new)
          · refine gone ⟨file, ?_, stamped⟩
            rw [now, SortedMap.get_put, if_neg mine]
            exact found
      | deleted n snap s s' now w x old older less past stood first =>
          by_cases mine : name = n
          · subst mine
            obtain ⟨file', found', stamped'⟩ := old
            rw [found] at found'
            cases found'
            obtain rfl : stamp = s := Option.some.inj (stamped.symm.trans stamped')
            -- the snapshot arrived after the block did, and it is no later than this
            have after : t ≤ w := by
              by_contra early
              exact arrived.2 w (by omega) older
            exact last x (by omega) (by omega) snap s' ⟨stood, first⟩
          · refine gone ⟨file, ?_, stamped⟩
            rw [now, SortedMap.get_erase, if_neg mine]
            exact found

/-- Between two moments with one listing nothing arrives. -/
theorem Lawful.none_arrives (lawful : Lawful dirs) (same : fingerprint (dirs t) = fingerprint (dirs u)) :
    ∀ v, t < v → v ≤ u → ∀ n s, ¬ Arrives dirs v n s := by
  -- from the last arrival backwards
  have back : ∀ d v, v + d = u → t < v → ∀ n s, ¬ Arrives dirs v n s := by
    intro d
    induction d using Nat.strong_induction_on with
    | _ d ih =>
        intro v sum after n s arrived
        have last : ∀ w, v < w → w ≤ u → ∀ n s, ¬ Arrives dirs w n s := by
          intro w more within
          exact ih (u - w) (by omega) w (by omega) (by omega)
        have stays := lawful.last_stays arrived last u (by omega) (Nat.le_refl u)
        have listed := mem_fingerprint.mpr stays
        rw [← same] at listed
        exact arrived.2 t after (mem_fingerprint.mp listed)
  intro v after within
  exact back (u - v) v (by omega) after

/-- A directory whose listing is the same at two moments was the same between them. -/
theorem Lawful.unchanged (lawful : Lawful dirs) (same : fingerprint (dirs t) = fingerprint (dirs u)) {v : Nat}
    (after : t ≤ v) (before : v ≤ u) : dirs v = dirs t := by
  have none_arrives := lawful.none_arrives same
  -- what stands there at one of these moments stood there before it
  have back : ∀ w x, t ≤ w → w ≤ x → x ≤ u → ∀ n s, Stands (dirs x) n s → Stands (dirs w) n s := by
    intro w x from_ le
    induction x, le using Nat.le_induction with
    | base => exact fun _ _ _ there => there
    | succ x le ih =>
        intro within n s there
        refine ih (by omega) n s ?_
        by_contra new
        exact none_arrives (x + 1) (by omega) within n s (lawful.arrives there new)
  refine lawful.same_dir fun n s => ⟨back t v (Nat.le_refl t) after before n s, fun there => ?_⟩
  refine back v u after before (Nat.le_refl u) n s (mem_fingerprint.mp ?_)
  rw [← same]
  exact mem_fingerprint.mpr there

/-- What is kept is a read of a directory that stood there, with nothing waiting. -/
structure Good (dirs : Nat → Directory N) (u : Nat) (kept : Kept N) : Prop where
  fingerprint : kept.fingerprint = fingerprint (dirs u)
  snapshot : ∃ doc : LoroDoc, kept.snapshot = doc.snapshot ∧ doc.parked = [] ∧ MadeOf (operations (dirs u)) doc
  broken : ∀ n, n ∈ kept.broken ↔ Bad (dirs u) n
  once : kept.broken.Nodup

/-- The names on a listing are those of the blocks there. -/
theorem Lawful.mem_names (lawful : Lawful dirs) :
    n ∈ ((KeptReads.fingerprint (dirs u)).map Prod.fst).toFinset ↔ ∃ file, (dirs u).get n = some file := by
  rw [List.mem_toFinset, List.mem_map]
  constructor
  · rintro ⟨⟨n, stamp⟩, mem, rfl⟩
    obtain ⟨file, there, _⟩ := mem_fingerprint.mp mem
    exact ⟨file, there⟩
  · rintro ⟨file, there⟩
    obtain ⟨stamp, stamped⟩ := lawful.stamped u n file there
    exact ⟨(n, stamp), mem_fingerprint.mpr ⟨file, there, stamped⟩, rfl⟩

theorem mergeReport_snapshot {ops : Set SyncOp} (made : MadeOf ops doc) (whole : doc.parked = []) (peer : Writer) :
    ∃ report, (LoroDoc.open peer).mergeReport doc.snapshot = .ok (report, (LoroDoc.open peer).takeOps doc.applied) ∧
      report.pending = [] := by
  refine ⟨(LoroDoc.open peer).reportOf doc.applied, rfl, ?_⟩
  simp only [LoroDoc.reportOf, (made.snapshot whole peer).2, List.filter_nil]
  rfl

/-- A copy from what was kept says what the directory holds. -/
theorem keptCopy_faithful (lawful : Lawful dirs) {kept : Kept N} (good : Good dirs u kept) {hit : Loaded N}
    (found : keptCopy kind peer (some kept) (fingerprint (dirs t)) = some hit) : Faithful (dirs t) peer hit := by
  obtain ⟨doc, is, whole, made⟩ := good.snapshot
  obtain ⟨report, imports, none_waits⟩ := mergeReport_snapshot made whole peer
  obtain ⟨again, whole'⟩ := made.snapshot whole peer
  by_cases listed : kept.kind = kind ∧ kept.fingerprint = fingerprint (dirs t)
  · have same : dirs t = dirs u := by
      refine lawful.same_dir fun n s => ?_
      rw [← mem_fingerprint, ← mem_fingerprint, ← listed.2, ← good.fingerprint]
    simp only [keptCopy, if_pos listed, is, imports, none_waits, ne_eq, not_true_eq_false, if_false,
      Option.some.injEq] at found
    subst found
    rw [same]
    refine ⟨rfl, again, ⟨?_, ?_⟩, rfl, fun n => ?_, good.broken, good.once⟩
    · intro o parked
      rw [whole'] at parked
      cases parked
    · intro w stop known
      simp at known
    · rw [heldOf, Finset.mem_filter, lawful.mem_names, good.broken]
      constructor
      · rintro ⟨⟨file, there⟩, fine⟩
        exact (bad_or_reads there).resolve_left fine
      · intro reads
        obtain ⟨file, _, there, _⟩ := id reads
        exact ⟨⟨file, there⟩, fun bad => not_reads_of_bad bad reads⟩
  · simp [keptCopy, listed] at found

/-- A base taken from what was kept is sound for a directory that still lists its blocks. -/
theorem baseOf_sound (lawful : Lawful dirs) {kept : Kept N} (good : Good dirs u kept) {base : Base N}
    (found : baseOf kind (some kept) (fingerprint (dirs t)) = some base) : Sound (dirs t) base := by
  obtain ⟨doc, is, whole, made⟩ := good.snapshot
  by_cases listed : kept.kind = kind ∧ ∀ e ∈ kept.fingerprint, e ∈ fingerprint (dirs t)
  · simp only [baseOf, if_pos listed, Option.some.injEq] at found
    subst found
    have onto := fun (n : N) (file : File) (there : (dirs u).get n = some file) =>
      lawful.still_there (good.fingerprint ▸ listed.2) there
    have named : ∀ n, n ∈ (kept.fingerprint.map Prod.fst).toFinset ↔ ∃ file, (dirs u).get n = some file := by
      intro n
      rw [good.fingerprint, lawful.mem_names]
    have operations_same :
        operationsOf (dirs t) (kept.fingerprint.map Prod.fst).toFinset.toList = operations (dirs u) := by
      ext o
      constructor
      · rintro ⟨n, mem, file, ops, there, rest⟩
        obtain ⟨file', old⟩ := (named n).mp (Finset.mem_toList.mp mem)
        cases (onto n file' old).symm.trans there
        exact ⟨n, file, ops, old, rest⟩
      · rintro ⟨n, file, ops, old, rest⟩
        exact ⟨n, Finset.mem_toList.mpr ((named n).mpr ⟨file, old⟩), file, ops, onto n file old, rest⟩
    refine ⟨fun n mem => ?_, ⟨doc, is, whole, by rw [operations_same]; exact made⟩, fun n => ?_, good.once⟩
    · obtain ⟨file, old⟩ := (named n).mp mem
      exact ⟨file, onto n file old⟩
    · rw [good.broken]
      constructor
      · rintro ⟨file, old, why⟩
        exact ⟨(named n).mpr ⟨file, old⟩, file, onto n file old, why⟩
      · rintro ⟨mem, file, there, why⟩
        obtain ⟨file', old⟩ := (named n).mp mem
        cases (onto n file' old).symm.trans there
        exact ⟨file, old, why⟩
  · simp only [baseOf, if_neg listed, reduceCtorEq] at found

theorem Faithful.good {loaded : Loaded N} (faithful : Faithful (dirs t) peer loaded)
    (resolved : loaded.hasUnresolvedImports = false) (kind : Nat) : Good dirs t
      { fingerprint := KeptReads.fingerprint (dirs t), kind := kind, snapshot := loaded.doc.snapshot
        broken := loaded.broken } := by
  have whole : loaded.doc.parked = [] := by
    by_contra some_
    have unresolved := (unresolved_iff faithful.made faithful.tallied).mpr some_
    rw [resolved] at unresolved
    cases unresolved
  exact ⟨rfl, ⟨loaded.doc, rfl, whole, faithful.made⟩, faithful.broken, faithful.once⟩

/-- Behind the gate a load says what the directory holds, while that stays as it is. -/
theorem readKeeping_faithful (lawful : Lawful dirs) {kept : Option (Kept N)} (good : ∀ k ∈ kept, ∃ u, Good dirs u k)
    (still : ∀ v, t ≤ v → v < (readKeeping dirs t kind peer kept).2.2 → dirs v = dirs t) :
    Faithful (dirs t) peer (readKeeping dirs t kind peer kept).1 := by
  cases hit : keptCopy kind peer kept (fingerprint (dirs t)) with
  | some copy =>
      cases kept with
      | none => simp [keptCopy] at hit
      | some k =>
          obtain ⟨u, good⟩ := good k rfl
          simp only [readKeeping, hit]
          exact keptCopy_faithful lawful good hit
  | none =>
      have ends : (readKeeping dirs t kind peer kept).2.2 =
          (loadInner dirs (t + 1) peer (baseOf kind kept (fingerprint (dirs t)))).2 + 1 := by
        simp only [readKeeping, hit]
        split <;> rfl
      have loaded : (readKeeping dirs t kind peer kept).1 =
          (loadInner dirs (t + 1) peer (baseOf kind kept (fingerprint (dirs t)))).1 := by
        simp only [readKeeping, hit]
        split <;> rfl
      rw [loaded]
      refine loadInner_faithful (fun base found => ?_) fun v le less => still v (by omega) (by omega)
      cases kept with
      | none => simp [baseOf] at found
      | some k =>
          obtain ⟨u, good⟩ := good k rfl
          exact baseOf_sound lawful good found

/-- What a process keeps, after any loads and whatever the directory went through meanwhile, is a read of a directory
  that stood there. -/
theorem reached_good (lawful : Lawful dirs) {kept : Option (Kept N)} (reached : Reached dirs t kept) :
    ∀ k ∈ kept, ∃ u, Good dirs u k := by
  induction reached with
  | start => rintro k ⟨⟩
  | wait _ _ ih => exact ih
  | forget => rintro k ⟨⟩
  | @load t kept kind peer before ih =>
      cases hit : keptCopy kind peer kept (fingerprint (dirs t)) with
      | some copy =>
          simp only [readKeeping, hit]
          exact ih
      | none =>
          by_cases keeps : fingerprint (dirs t) ≠ [] ∧
              fingerprint (dirs (loadInner dirs (t + 1) peer (baseOf kind kept (fingerprint (dirs t)))).2) =
                fingerprint (dirs t) ∧
              (loadInner dirs (t + 1) peer (baseOf kind kept (fingerprint (dirs t)))).1.hasUnresolvedImports = false
          · -- the listing is what it was before the read, so the directory was too, all the while
            have same := keeps.2.1
            have later := loadInner_later dirs (t + 1) peer (baseOf kind kept (fingerprint (dirs t)))
            have faithful : Faithful (dirs t) peer (readKeeping dirs t kind peer kept).1 := by
              refine readKeeping_faithful lawful ih fun v from_ less => ?_
              simp only [readKeeping, hit, if_pos keeps] at less
              exact lawful.unchanged same.symm from_ (by omega)
            simp only [readKeeping, hit, if_pos keeps] at faithful ⊢
            rintro k ⟨⟩
            exact ⟨t, faithful.good keeps.2.2 kind⟩
          · simp only [readKeeping, hit, if_neg keeps]
            exact ih

/-- Whatever was kept, a load from it agrees with a plain read of the directory: the copy that the first look gives, and
  the one made behind the gate. -/
theorem kept_agrees (lawful : Lawful dirs) (named : Coherent (everOf dirs)) {t : Nat} {kept : Option (Kept N)}
    (reached : Reached dirs t kept) (still : ∀ v, t ≤ v → dirs v = dirs t) (kind : Nat) (peer : Writer) :
    (∀ hit, look dirs t kind peer kept = some hit → Agrees hit (loadInner dirs t peer none).1) ∧
      Agrees (readKeeping dirs t kind peer kept).1 (loadInner dirs t peer none).1 := by
  have good := reached_good lawful reached
  have coherent : Coherent (operations (dirs t)) := named.mono fun o mem => ⟨t, mem⟩
  have plain : Faithful (dirs t) peer (loadInner dirs t peer none).1 :=
    loadInner_faithful (fun b none_ => nomatch none_) fun v from_ _ => still v from_
  refine ⟨fun hit found => ?_, ?_⟩
  · cases kept with
    | none => simp [look, keptCopy] at found
    | some k =>
        obtain ⟨u, good⟩ := good k rfl
        exact (keptCopy_faithful lawful good found).agrees plain coherent
  · exact (readKeeping_faithful lawful good fun v from_ _ => still v from_).agrees plain coherent

end History

/-! ### Histories that tell the two apart -/

/-- A directory that gains one block at the moment `late`. -/
def gains (dir : Directory N) (late : Nat) (name : N) (file : File) (t : Nat) : Directory N :=
  if t < late then dir else dir.put name file

theorem gains_cases {late : Nat} {f : File} (there : (gains dir late name file t).get n = some f) :
    dir.get n = some f ∨ (n = name ∧ f = file) := by
  unfold gains at there
  split at there
  · exact .inl there
  · rw [SortedMap.get_put] at there
    split at there
    · rename_i same
      exact .inr ⟨same, (Option.some.inj there).symm⟩
    · exact .inl there

theorem gains_lawful {late : Nat} (new : dir.get name = none)
    (stamped : ∀ n f, dir.get n = some f → ∃ stamp, f.stamp = some stamp) (timed : ∃ stamp, file.stamp = some stamp) :
    Lawful (gains dir late name file) where
  stamped := by
    intro t n f there
    obtain old | ⟨_, rfl⟩ := gains_cases there
    · exact stamped n f old
    · exact timed
  immutable := by
    intro t u n f f' there there' _
    obtain old | ⟨rfl, rfl⟩ := gains_cases there
    · obtain old' | ⟨rfl, _⟩ := gains_cases there'
      · exact Option.some.inj (old.symm.trans old')
      · rw [new] at old
        cases old
    · obtain old' | ⟨_, rfl⟩ := gains_cases there'
      · rw [new] at old'
        cases old'
      · rfl
  changes := by
    intro t
    by_cases early : t + 1 < late
    · exact .still (by simp only [gains, early, if_true, show t < late by omega])
    · by_cases now : t < late
      · refine .written name file (by simp only [gains, early, now, if_true, if_false]) ?_
        rintro u before stamp _ ⟨f, there, _⟩
        have old : gains dir late name file u = dir := by simp only [gains, show u < late by omega, if_true]
        rw [old, new] at there
        cases there
      · exact .still (by simp only [gains, early, now, if_false])

end Loads

def firstOp : SyncOp := { writer := 1, counter := 0, deps := [], body := 0 }

def secondOp : SyncOp := { writer := 2, counter := 0, deps := [], body := 0 }

def firstFile : File := { bytes := some [firstOp], stamp := some (1, 1), unread := false }

def secondFile : File := { bytes := some [secondOp], stamp := some (1, 2), unread := false }

def brokenFile : File := { bytes := none, stamp := some (1, 3), unread := false }

def alone (file : File) : Directory Nat := SortedMap.empty.put 1 file

theorem alone_get {file f : File} {n : Nat} (there : (alone file).get n = some f) : n = 1 ∧ f = file := by
  rw [alone, SortedMap.get_put] at there
  split at there
  · rename_i same
    exact ⟨same, (Option.some.inj there).symm⟩
  · cases there

/-- What a first load keeps. -/
def firstKept (dirs : Nat → Directory Nat) : Option (Kept Nat) := (readKeeping dirs 0 0 7 none).2.1

theorem firstKept_reached {dirs : Nat → Directory Nat} (soon : (readKeeping dirs 0 0 7 none).2.2 ≤ 9) :
    Reached dirs 9 (firstKept dirs) :=
  .wait (.load 0 7 (.start 0)) soon

/-- A second block beside one that was kept. -/
theorem kept_agrees_second :
    let dirs := gains (alone firstFile) 9 2 secondFile
    Agrees (readKeeping dirs 9 0 7 (firstKept dirs)).1 (loadInner dirs 9 7 none).1 := by
  have lawful : Lawful (gains (alone firstFile) 9 2 secondFile) :=
    gains_lawful (by decide) (fun n f there => ⟨(1, 1), (alone_get there).2 ▸ rfl⟩) ⟨(1, 2), rfl⟩
  have ops : ∀ o ∈ everOf (gains (alone firstFile) 9 2 secondFile), o = firstOp ∨ o = secondOp := by
    rintro o ⟨t, n, file, ops, there, _, bytes, mem⟩
    obtain old | ⟨_, rfl⟩ := gains_cases there
    · obtain ⟨_, rfl⟩ := alone_get old
      cases bytes
      exact .inl (List.mem_singleton.mp mem)
    · cases bytes
      exact .inr (List.mem_singleton.mp mem)
  have named : Coherent (everOf (gains (alone firstFile) 9 2 secondFile)) := by
    intro o mem o' mem' same
    obtain rfl | rfl := ops o mem <;> obtain rfl | rfl := ops o' mem' <;> first | rfl | cases same
  refine (kept_agrees lawful named (firstKept_reached (by decide)) (fun v from_ => ?_) 0 7).2
  simp only [gains, show ¬ v < 9 by omega, if_false, Nat.lt_irrefl]

/-- A broken block listed before one that was kept. -/
def lateBroken : Nat → Directory Nat := gains (SortedMap.empty.put 2 brokenFile) 9 1 brokenFile

/-- A block that would not read at first, and then does. -/
def healed (t : Nat) : Directory Nat := alone { firstFile with unread := decide (t < 9) }

/-- A block from before 1970. -/
def untimed : Nat → Directory Nat := gains (alone firstFile) 9 2 { secondFile with stamp := none }

/-- A load from what was kept lists broken blocks in another order than a plain read; it leaves out a block that would
  not read when the read was kept; and it leaves out a block that the fingerprint cannot tell. -/
theorem kept_differs :
    (Lawful lateBroken ∧ Reached lateBroken 9 (firstKept lateBroken) ∧
      (readKeeping lateBroken 9 0 7 (firstKept lateBroken)).1.broken = [2, 1] ∧
      (loadInner lateBroken 9 7 none).1.broken = [1, 2]) ∧
    (Reached healed 9 (firstKept healed) ∧
      (look healed 9 0 7 (firstKept healed)).map (·.doc.applied) = some [] ∧
      (loadInner healed 9 7 none).1.doc.applied = [firstOp]) ∧
    (Reached untimed 9 (firstKept untimed) ∧
      (look untimed 9 0 7 (firstKept untimed)).map (·.doc.applied) = some [firstOp] ∧
      (loadInner untimed 9 7 none).1.doc.applied = [firstOp, secondOp]) := by
  refine ⟨⟨?_, firstKept_reached (by decide), by decide, by decide⟩,
    ⟨firstKept_reached (by decide), by decide, by decide⟩, ⟨firstKept_reached (by decide), by decide, by decide⟩⟩
  refine gains_lawful (by decide) (fun n f there => ⟨(1, 3), ?_⟩) ⟨(1, 3), rfl⟩
  rw [SortedMap.get_put] at there
  split at there
  · rw [← Option.some.inj there]
    rfl
  · cases there

end Khor.Sync.KeptReads
