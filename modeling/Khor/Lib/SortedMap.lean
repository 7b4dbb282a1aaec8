/-
Module: Khor.Lib.SortedMap
Purpose: Maps as lists of entries in the order of their keys. Two maps with the same value under every key are one, and
  what each operation leaves is told key by key.
Trusted boundary: none
Main exports: SortedMap, SortedMap.get, SortedMap.put, SortedMap.erase, SortedMap.retain
-/
import Mathlib

namespace Khor

/-- A map with its entries in the order of their keys. -/
structure SortedMap (K V : Type) [LinearOrder K] where
  entries : List (K × V)
  sorted : entries.Pairwise fun a b => a.1 < b.1

namespace SortedMap

variable {K V W : Type} [LinearOrder K]

instance [DecidableEq V] : DecidableEq (SortedMap K V) := fun m m' =>
  decidable_of_iff (m.entries = m'.entries) ⟨fun h => by cases m; cases m'; cases h; rfl, fun h => h ▸ rfl⟩

def empty : SortedMap K V := ⟨[], .nil⟩

def get (m : SortedMap K V) (k : K) : Option V := (m.entries.find? (·.1 = k)).map Prod.snd

def keys (m : SortedMap K V) : List K := m.entries.map Prod.fst

def size (m : SortedMap K V) : Nat := m.entries.length

/-- Another value under the key, in its place. -/
def put (m : SortedMap K V) (k : K) (v : V) : SortedMap K V where
  entries := m.entries.filter (·.1 < k) ++ (k, v) :: m.entries.filter (k < ·.1)
  sorted := by
    refine List.pairwise_append.mpr ⟨m.sorted.sublist List.filter_sublist, ?_, ?_⟩
    · refine List.pairwise_cons.mpr ⟨fun e mem => ?_, m.sorted.sublist List.filter_sublist⟩
      exact of_decide_eq_true (List.mem_filter.mp mem).2
    · intro e before e' after
      have less : e.1 < k := of_decide_eq_true (List.mem_filter.mp before).2
      obtain rfl | later := List.mem_cons.mp after
      · exact less
      · exact less.trans (of_decide_eq_true (List.mem_filter.mp later).2)

def retain (m : SortedMap K V) (p : K → V → Bool) : SortedMap K V :=
  ⟨m.entries.filter fun e => p e.1 e.2, m.sorted.sublist List.filter_sublist⟩

def erase (m : SortedMap K V) (k : K) : SortedMap K V := m.retain fun k' _ => k' ≠ k

def mapValues (m : SortedMap K V) (f : V → W) : SortedMap K W :=
  ⟨m.entries.map fun e => (e.1, f e.2), List.pairwise_map.mpr m.sorted⟩

theorem nodup (m : SortedMap K V) : m.keys.Nodup :=
  List.pairwise_map.mpr (m.sorted.imp fun less => ne_of_lt less)

variable {m : SortedMap K V} {k : K}

/-- Under a key stands the value of the one entry that has it. -/
theorem get_eq_some {v : V} : m.get k = some v ↔ (k, v) ∈ m.entries := by
  constructor
  · intro is
    obtain ⟨⟨k', v'⟩, found, rfl⟩ := Option.map_eq_some_iff.mp is
    have named := List.find?_some found
    have same : k' = k := of_decide_eq_true named
    exact same ▸ List.mem_of_find?_eq_some found
  · intro mem
    unfold get
    cases found : m.entries.find? (·.1 = k) with
    | none => exact absurd (decide_eq_true rfl) (List.find?_eq_none.mp found (k, v) mem)
    | some e =>
        have named := List.find?_some found
        have same : e.1 = (k, v).1 := of_decide_eq_true named
        rw [List.inj_on_of_nodup_map m.nodup (List.mem_of_find?_eq_some found) mem same]
        rfl

/-- Maps that agree under every key are one. -/
theorem ext_get {m' : SortedMap K V} (same : ∀ k, m.get k = m'.get k) : m = m' := by
  have nodup (m : SortedMap K V) : m.entries.Nodup :=
    m.sorted.imp fun less same => ne_of_lt less (congrArg Prod.fst same)
  have perm : m.entries.Perm m'.entries := by
    refine (List.perm_ext_iff_of_nodup (nodup m) (nodup m')).mpr fun ⟨k, v⟩ => ?_
    rw [← get_eq_some, ← get_eq_some, same]
  have entries : m.entries = m'.entries :=
    perm.eq_of_pairwise (fun a b _ _ less more => absurd less (lt_asymm more)) m.sorted m'.sorted
  cases m
  cases m'
  cases entries
  rfl

theorem get_put (m : SortedMap K V) (k k' : K) (v : V) : (m.put k v).get k' = if k' = k then some v else m.get k' := by
  have mem (w : V) : (k', w) ∈ (m.put k v).entries ↔ if k' = k then w = v else (k', w) ∈ m.entries := by
    unfold put
    rw [List.mem_append, List.mem_cons, List.mem_filter, List.mem_filter]
    split
    · rename_i same
      simp [same]
    · rename_i other
      obtain less | more := lt_or_gt_of_ne other
      · simp [other, less, lt_asymm less]
      · simp [other, show k < k' from more, lt_asymm more]
  refine Option.ext fun w => ?_
  rw [get_eq_some, mem w]
  split
  · exact ⟨fun h => congrArg some h.symm, fun h => (Option.some.inj h).symm⟩
  · exact get_eq_some.symm

theorem get_retain (m : SortedMap K V) (p : K → V → Bool) (k : K) : (m.retain p).get k = (m.get k).filter (p k) := by
  refine Option.ext fun v => ?_
  rw [get_eq_some, Option.filter_eq_some_iff, get_eq_some]
  exact List.mem_filter

theorem get_erase (m : SortedMap K V) (k k' : K) : (m.erase k).get k' = if k' = k then none else m.get k' := by
  unfold erase
  rw [get_retain]
  split
  · rename_i same
    cases m.get k' <;> simp [same]
  · rename_i other
    cases m.get k' <;> simp [other]

theorem get_mapValues (m : SortedMap K V) (f : V → W) (k : K) : (m.mapValues f).get k = (m.get k).map f := by
  refine Option.ext fun w => ?_
  rw [get_eq_some, Option.map_eq_some_iff]
  constructor
  · intro mem
    obtain ⟨⟨k', v⟩, there, same⟩ := List.mem_map.mp mem
    cases same
    exact ⟨v, get_eq_some.mpr there, rfl⟩
  · rintro ⟨v, there, rfl⟩
    exact List.mem_map.mpr ⟨(k, v), get_eq_some.mp there, rfl⟩

theorem mem_keys : k ∈ m.keys ↔ (m.get k).isSome := by
  constructor
  · intro mem
    obtain ⟨⟨k', v⟩, there, rfl⟩ := List.mem_map.mp mem
    rw [get_eq_some.mpr there]
    rfl
  · intro some_
    obtain ⟨v, is⟩ := Option.isSome_iff_exists.mp some_
    exact List.mem_map.mpr ⟨(k, v), get_eq_some.mp is, rfl⟩

/-! ### How many entries -/

/-- A map has no more entries than any list that has its keys. -/
theorem size_le {ks : List K} (all : ∀ k, (m.get k).isSome → k ∈ ks) : m.size ≤ ks.length := by
  have keys : m.size = m.keys.length := List.length_map .. |>.symm
  rw [keys]
  exact (m.nodup.subperm fun k mem => all k (mem_keys.mp mem)).length_le

theorem size_put (m : SortedMap K V) (k : K) (v : V) : (m.put k v).size ≤ m.size + 1 := by
  have count : m.size + 1 = (k :: m.keys).length := by
    rw [List.length_cons, keys, List.length_map, size]
  rw [count]
  refine size_le fun k' some_ => ?_
  rw [get_put] at some_
  split at some_
  · rename_i same
    exact same ▸ List.mem_cons_self
  · exact .tail _ (mem_keys.mpr some_)

/-- Another value under a key that is there takes no room. -/
theorem size_put_of_mem (there : (m.get k).isSome) (v : V) : (m.put k v).size ≤ m.size := by
  have count : m.size = m.keys.length := List.length_map .. |>.symm
  rw [count]
  refine size_le fun k' some_ => ?_
  rw [get_put] at some_
  split at some_
  · rename_i same
    exact same ▸ mem_keys.mpr there
  · exact mem_keys.mpr some_

theorem size_erase (there : (m.get k).isSome) : (m.erase k).size < m.size := by
  have mem : k ∈ m.keys := mem_keys.mpr there
  have count : m.size = m.keys.length := List.length_map .. |>.symm
  have fewer : (m.erase k).size ≤ (m.keys.erase k).length := by
    refine size_le fun k' some_ => ?_
    rw [get_erase] at some_
    split at some_
    · cases some_
    · rename_i other
      exact (List.mem_erase_of_ne other).mpr (mem_keys.mpr some_)
  rw [List.length_erase_of_mem mem, ← count] at fewer
  have : 0 < m.size := count ▸ List.length_pos_of_mem mem
  omega

end SortedMap

end Khor
