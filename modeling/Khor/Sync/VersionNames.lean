/-
Module: Khor.Sync.VersionNames
Purpose: The spelling of a version that a digest is taken over: every writer with its counter in writer order, writers
  with none left out, and the epoch after them when it is not 0. The vector comes as a list of entries in whatever
  order its map hands them out.
Trusted boundary: loro's version vector of a document: counters say how many operations are held, so none is negative
Main exports: Counters, Counters.held, Counters.live, Replica, versionCanonical_names
-/
import Khor.Lib.BigEndian

namespace Khor.VersionNames

/-- loro's version vector: a map of writers to signed counters; the order of its entries is the map's own. -/
abbrev Counters := AList (fun _ : UInt64 => Int32)

namespace Counters

/-- How many operations of a writer are held. An absent writer, like one listed at zero, has none. -/
def held (vv : Counters) (w : UInt64) : Int32 := (vv.lookup w).getD 0

/-- The entries with a counter above zero, as the map hands them out. -/
def live (vv : Counters) : List (UInt64 × Int32) :=
  (vv.entries.filter fun e => 0 < e.2).map fun e => (e.1, e.2)

theorem mem_live {vv : Counters} {w : UInt64} {c : Int32} : (w, c) ∈ vv.live ↔ vv.lookup w = some c ∧ 0 < c := by
  rw [live, List.mem_map]
  constructor
  · rintro ⟨⟨w', c'⟩, mem, same⟩
    cases same
    obtain ⟨listed, pos⟩ := List.mem_filter.mp mem
    exact ⟨AList.mem_lookup_iff.mpr listed, of_decide_eq_true pos⟩
  · rintro ⟨found, pos⟩
    exact ⟨⟨w, c⟩, List.mem_filter.mpr ⟨AList.mem_lookup_iff.mp found, decide_eq_true pos⟩, rfl⟩

/-- A writer is listed at most once. -/
theorem live_keys_nodup (vv : Counters) : (vv.live.map Prod.fst).Nodup := by
  rw [live, List.map_map]
  exact List.Nodup.sublist (List.filter_sublist.map Sigma.fst) vv.nodupKeys

theorem live_nodup (vv : Counters) : vv.live.Nodup := vv.live_keys_nodup.of_map _

end Counters

/-- `sort_unstable` on pairs: by the writer, then by the counter. -/
def sortUnstable (entries : List (UInt64 × Int32)) : List (UInt64 × Int32) :=
  entries.mergeSort fun a b => a.1 < b.1 || (a.1 == b.1 && a.2 ≤ b.2)

theorem mem_sortUnstable {entries : List (UInt64 × Int32)} {e : UInt64 × Int32} :
    e ∈ sortUnstable entries ↔ e ∈ entries := (List.mergeSort_perm _ _).mem_iff

theorem sortUnstable_pairwise (entries : List (UInt64 × Int32)) :
    (sortUnstable entries).Pairwise fun a b => (a.1 < b.1 || (a.1 == b.1 && a.2 ≤ b.2)) = true := by
  apply List.pairwise_mergeSort
  · intro a b c ab bc
    simp only [Bool.or_eq_true, Bool.and_eq_true, decide_eq_true_eq, beq_iff_eq] at ab bc ⊢
    grind [UInt64.lt_trans, Int32.le_trans]
  · intro a b
    simp only [Bool.or_eq_true, Bool.and_eq_true, decide_eq_true_eq, beq_iff_eq]
    grind [UInt64.lt_or_lt_of_ne, Int32.le_total]

/-- A set of entries has one sorted spelling, whatever order they came in. -/
theorem sortUnstable_eq_iff {es es' : List (UInt64 × Int32)} (nodup : es.Nodup) (nodup' : es'.Nodup) :
    sortUnstable es = sortUnstable es' ↔ ∀ e, e ∈ es ↔ e ∈ es' := by
  constructor
  · intro same e
    rw [← mem_sortUnstable, same, mem_sortUnstable]
  · intro same
    have perm : es.Perm es' := (List.perm_ext_iff_of_nodup nodup nodup').mpr same
    have sorted : (sortUnstable es).Perm (sortUnstable es') :=
      (List.mergeSort_perm _ _).trans (perm.trans (List.mergeSort_perm _ _).symm)
    refine sorted.eq_of_pairwise ?_ (sortUnstable_pairwise es) (sortUnstable_pairwise es')
    intro a b _ _ ab ba
    simp only [Bool.or_eq_true, Bool.and_eq_true, decide_eq_true_eq, beq_iff_eq] at ab ba
    apply Prod.ext
    · grind [UInt64.lt_asymm]
    · grind [UInt64.lt_irrefl, UInt64.lt_asymm, Int32.le_antisymm]

/-- What of a machine's copy of one document its name is made of: the store's epoch and the document's version. -/
structure Replica where
  epoch : UInt32
  version : Counters
  /-- A counter says how many operations are held. -/
  counted : ∀ e ∈ version.entries, 0 ≤ e.2

/-- A peer and its counter, eight bytes and four, least significant first. -/
def spellEntry (e : UInt64 × Int32) : List UInt8 := toLe 8 e.1.toNat ++ toLe 4 e.2.toUInt32.toNat

/-- `b"epoch"`. -/
def EPOCH : List UInt8 := [101, 112, 111, 99, 104]

def versionCanonical (replica : Replica) : List UInt8 :=
  let out := (sortUnstable replica.version.live).flatMap spellEntry
  if replica.epoch ≠ 0 then out ++ EPOCH ++ toLe 4 replica.epoch.toNat else out

@[simp] theorem spellEntry_length (e : UInt64 × Int32) : (spellEntry e).length = 12 := by
  rw [spellEntry, List.length_append, toLe_length, toLe_length]

theorem toUInt32_inj : ∀ {a b : Int32}, a.toUInt32 = b.toUInt32 → a = b
  | ⟨_⟩, ⟨_⟩, same => congrArg Int32.ofUInt32 same

theorem spellEntry_inj (e e' : UInt64 × Int32) (same : spellEntry e = spellEntry e') : e = e' := by
  obtain ⟨writer, counter⟩ := List.append_inj same (by rw [toLe_length, toLe_length])
  have writers := toLe_inj e.1.toNat_lt e'.1.toNat_lt writer
  have counters := toLe_inj e.2.toUInt32.toNat_lt e'.2.toUInt32.toNat_lt counter
  exact Prod.ext (UInt64.toNat_inj.mp writers) (toUInt32_inj (UInt32.toNat_inj.mp counters))

/-- The entries of a spelling, and then the epoch where it is not 0: the length over twelve tells where one ends. -/
theorem versionCanonical_inj {a b : Replica} (same : versionCanonical a = versionCanonical b) :
    a.epoch = b.epoch ∧ sortUnstable a.version.live = sortUnstable b.version.live := by
  have lens := congrArg List.length same
  unfold versionCanonical at same lens
  have entries := fun (es : List (UInt64 × Int32)) => flatMap_length spellEntry_length es
  by_cases atZero : a.epoch = 0 <;> by_cases atZero' : b.epoch = 0
  · simp only [atZero, atZero', ne_eq, not_true_eq_false, if_false] at same
    exact ⟨by rw [atZero, atZero'], flatMap_inj (by omega) spellEntry_length spellEntry_inj same⟩
  · simp only [atZero, atZero', ne_eq, not_true_eq_false, not_false_eq_true, if_false, if_true, List.length_append,
      toLe_length, entries, EPOCH, List.length_cons, List.length_nil] at lens
    omega
  · simp only [atZero, atZero', ne_eq, not_true_eq_false, not_false_eq_true, if_false, if_true, List.length_append,
      toLe_length, entries, EPOCH, List.length_cons, List.length_nil] at lens
    omega
  · simp only [atZero, atZero', ne_eq, not_false_eq_true, if_true, List.append_assoc] at same
    obtain ⟨records, suffix⟩ := List.append_inj' same (by simp only [List.length_append, toLe_length])
    have epochs := toLe_inj a.epoch.toNat_lt b.epoch.toNat_lt (List.append_cancel_left suffix)
    exact ⟨UInt32.toNat_inj.mp epochs, flatMap_inj (by omega) spellEntry_length spellEntry_inj records⟩

namespace Counters

/-- No counter is negative. -/
def Counted (vv : Counters) : Prop := ∀ e ∈ vv.entries, 0 ≤ e.2

variable {vv : Counters}

theorem Counted.held (counted : vv.Counted) (w : UInt64) : 0 ≤ vv.held w := by
  rw [Counters.held]
  cases found : vv.lookup w with
  | none => exact Int32.le_refl 0
  | some c => exact counted ⟨w, c⟩ (AList.mem_lookup_iff.mp found)

theorem mem_live_iff_held {w : UInt64} {c : Int32} (pos : 0 < c) : (w, c) ∈ vv.live ↔ vv.held w = c := by
  rw [mem_live, held]
  constructor
  · rintro ⟨found, -⟩
    rw [found, Option.getD_some]
  · intro is
    cases found : vv.lookup w with
    | none =>
        rw [found, Option.getD_none] at is
        exact absurd is (Int32.ne_of_lt pos)
    | some c' =>
        rw [found, Option.getD_some] at is
        exact ⟨congrArg some is, pos⟩

/-- Two vectors that hold the same of every writer have the same entries above zero. -/
theorem mem_live_congr {vv' : Counters} (same : ∀ w, vv.held w = vv'.held w) (e : UInt64 × Int32) :
    e ∈ vv.live ↔ e ∈ vv'.live := by
  obtain ⟨w, c⟩ := e
  by_cases pos : 0 < c
  · rw [mem_live_iff_held pos, mem_live_iff_held pos, same]
  · exact ⟨fun mem => absurd (mem_live.mp mem).2 pos, fun mem => absurd (mem_live.mp mem).2 pos⟩

/-- And where no counter is negative the entries above zero say all of it. -/
theorem held_congr {vv' : Counters} (counted : vv.Counted) (counted' : vv'.Counted)
    (same : ∀ e, e ∈ vv.live ↔ e ∈ vv'.live) (w : UInt64) : vv.held w = vv'.held w := by
  by_cases pos : 0 < vv.held w
  · exact ((mem_live_iff_held pos).mp ((same _).mp ((mem_live_iff_held pos).mpr rfl))).symm
  · by_cases pos' : 0 < vv'.held w
    · exact (mem_live_iff_held pos').mp ((same _).mpr ((mem_live_iff_held pos').mpr rfl))
    · rw [Int32.not_lt] at pos pos'
      rw [Int32.le_antisymm pos (counted.held w), Int32.le_antisymm pos' (counted'.held w)]

end Counters

/-- Equal names are the same version of the same epoch, and the other way round, whatever order the vectors were built
in. -/
theorem versionCanonical_names (a b : Replica) :
    versionCanonical a = versionCanonical b ↔
      a.epoch = b.epoch ∧ ∀ w, a.version.held w = b.version.held w := by
  constructor
  · intro same
    obtain ⟨epochs, sorted⟩ := versionCanonical_inj same
    have entries := (sortUnstable_eq_iff a.version.live_nodup b.version.live_nodup).mp sorted
    exact ⟨epochs, Counters.held_congr a.counted b.counted entries⟩
  · rintro ⟨epochs, same⟩
    have sorted := (sortUnstable_eq_iff a.version.live_nodup b.version.live_nodup).mpr (Counters.mem_live_congr same)
    rw [versionCanonical, versionCanonical, epochs, sorted]

/-- The operations of two writers, in one order of the entries, and in the other with a writer that has none. -/
def noted : Replica where
  epoch := 1
  version := ⟨[⟨3, 1⟩, ⟨7, 2⟩], by simp [List.NodupKeys, List.keys]⟩
  counted := by
    simp only [List.forall_mem_cons]
    exact ⟨by decide, by decide, nofun⟩

def notedOtherwise : Replica where
  epoch := 1
  version := ⟨[⟨7, 2⟩, ⟨5, 0⟩, ⟨3, 1⟩], by simp [List.NodupKeys, List.keys]⟩
  counted := by
    simp only [List.forall_mem_cons]
    exact ⟨by decide, by decide, by decide, nofun⟩

theorem versionCanonical_names_reordered :
    versionCanonical noted = versionCanonical notedOtherwise ∧
      versionCanonical noted ≠ versionCanonical { noted with epoch := 2 } := by
  refine ⟨(versionCanonical_names _ _).mpr ⟨rfl, fun w => ?_⟩, fun same => ?_⟩
  · simp only [noted, notedOtherwise, Counters.held, AList.lookup, List.dlookup]
    grind
  · have epochs : (1 : UInt32) = 2 := ((versionCanonical_names _ _).mp same).1
    exact absurd epochs (by decide)

end Khor.VersionNames
