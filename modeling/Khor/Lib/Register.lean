/-
Module: Khor.Lib.Register
Purpose: A replicated map whose entries are last-writer-wins registers. A replica is the writes it has
  received; what a key holds is the value of its latest write, a deletion being a write of nothing.
Trusted boundary: none
Main exports: Write, Register.latest, Register.get, Register.entries, Register.put
-/
import Mathlib

namespace Khor

/-- A write, stamped with a clock and the peer whose it is. -/
structure Write (κ ν : Type) where
  clock : Nat
  peer : Nat
  key : κ
  value : Option ν
deriving DecidableEq

/-- What the writes to one key are compared by. -/
def Write.stamp {κ ν : Type} (w : Write κ ν) : ℕ ×ₗ ℕ := toLex (w.clock, w.peer)

/-- The writes that a replica has received. -/
abbrev Register (κ ν : Type) := List (Write κ ν)

namespace Register

variable {κ ν : Type} [DecidableEq κ]

/-- The write that counts for a key. -/
def latest (t : Register κ ν) (k : κ) : Option (Write κ ν) :=
  (t.filter fun w => w.key = k).argmax Write.stamp

def get (t : Register κ ν) (k : κ) : Option ν := (t.latest k).bind (·.value)

/-- What the map holds, by key. -/
def entries (t : Register κ ν) : List (κ × ν) :=
  (t.map (·.key)).dedup.filterMap fun k => (t.get k).map fun v => (k, v)

/-- The clock of the next write, above those received. -/
def now (t : Register κ ν) : Nat := (t.map (·.clock)).foldr max 0 + 1

def write (t : Register κ ν) (peer : Nat) (k : κ) (v : Option ν) : Register κ ν :=
  t ++ [⟨t.now, peer, k, v⟩]

/-- A key that holds the value already is left alone. -/
def put [DecidableEq ν] (t : Register κ ν) (peer : Nat) (k : κ) (v : ν) : Register κ ν :=
  if t.get k = some v then t else t.write peer k (some v)

/-- Only what the map holds is deleted. -/
def delete (t : Register κ ν) (peer : Nat) (k : κ) : Register κ ν :=
  if (t.get k).isSome then t.write peer k none else t

def merge [DecidableEq ν] (t t' : Register κ ν) : Register κ ν := t ++ t'.filter fun w => w ∉ t

variable {t t' : Register κ ν}

variable {k : κ} {w : Write κ ν} {peer : Nat}

theorem latest_spec (h : t.latest k = some w) : w ∈ t ∧ w.key = k ∧ ∀ w' ∈ t, w'.key = k → w'.stamp ≤ w.stamp := by
  have mem := List.mem_filter.mp (List.argmax_mem h)
  refine ⟨mem.1, of_decide_eq_true mem.2, fun w' mem' same => ?_⟩
  exact List.le_of_mem_argmax (List.mem_filter.mpr ⟨mem', decide_eq_true same⟩) h

/-- A key that was written has a latest write. -/
theorem latest_of_mem (mem : w ∈ t) : ∃ w', t.latest w.key = some w' := by
  cases found : t.latest w.key with
  | some w' => exact ⟨w', rfl⟩
  | none =>
      have none_ := List.argmax_eq_none.mp found
      have listed : w ∈ t.filter fun w' => w'.key = w.key :=
        List.mem_filter.mpr ⟨mem, decide_eq_true rfl⟩
      rw [none_] at listed
      cases listed

theorem get_mem {v : ν} (h : t.get k = some v) : ∃ w ∈ t, w.key = k ∧ w.value = some v := by
  obtain ⟨w, found, value⟩ := Option.bind_eq_some_iff.mp h
  obtain ⟨mem, same, _⟩ := latest_spec found
  exact ⟨w, mem, same, value⟩

theorem mem_entries {v : ν} : (k, v) ∈ t.entries ↔ t.get k = some v := by
  unfold entries
  rw [List.mem_filterMap]
  constructor
  · rintro ⟨k', _, is⟩
    obtain ⟨v', held, same⟩ := Option.map_eq_some_iff.mp is
    cases same
    exact held
  · intro held
    obtain ⟨w, mem, same, _⟩ := get_mem held
    exact ⟨k, List.mem_dedup.mpr (List.mem_map.mpr ⟨w, mem, same⟩), by rw [held]; rfl⟩

omit [DecidableEq κ] in
/-- The next write is above every write received. -/
theorem clock_lt_now (mem : w ∈ t) : w.clock < t.now := by
  have le : w.clock ≤ (t.map (·.clock)).foldr max 0 := by
    induction t with
    | nil => cases mem
    | cons head tail ih =>
        rw [List.map_cons, List.foldr_cons]
        obtain rfl | later := List.mem_cons.mp mem
        · exact Nat.le_max_left _ _
        · exact Nat.le_trans (ih later) (Nat.le_max_right _ _)
  exact Nat.lt_succ_of_le le

omit [DecidableEq κ] in
theorem mem_write {v : Option ν} : w ∈ t.write peer k v ↔ w ∈ t ∨ w = ⟨t.now, peer, k, v⟩ := by
  rw [write, List.mem_append, List.mem_singleton]

section

variable (t : Register κ ν) (peer : Nat)

/-- The next write to a key is its latest. -/
theorem latest_write_self (k : κ) (v : Option ν) : (t.write peer k v).latest k = some ⟨t.now, peer, k, v⟩ := by
  have mem : (⟨t.now, peer, k, v⟩ : Write κ ν) ∈ t.write peer k v := mem_write.mpr (.inr rfl)
  obtain ⟨w, found⟩ := latest_of_mem mem
  obtain ⟨inside, _, above⟩ := latest_spec found
  obtain old | rfl := mem_write.mp inside
  · have le : t.now ≤ w.clock := Prod.Lex.monotone_fst _ _ (above _ mem rfl)
    exact absurd (clock_lt_now old) (not_lt.mpr le)
  · exact found

theorem latest_write_ne {k' : κ} (other : k' ≠ k) (v : Option ν) :
    (t.write peer k v).latest k' = t.latest k' := by
  have filtered : (t.write peer k v).filter (fun w => w.key = k') = t.filter fun w => w.key = k' := by
    rw [write, List.filter_append, List.filter_cons_of_neg (by simpa using Ne.symm other), List.filter_nil,
      List.append_nil]
  rw [latest, filtered, latest]

theorem get_write_self (k : κ) (v : Option ν) : (t.write peer k v).get k = v := by
  rw [get, latest_write_self, Option.bind_some]

theorem get_write_ne {k' : κ} (other : k' ≠ k) (v : Option ν) : (t.write peer k v).get k' = t.get k' := by
  rw [get, latest_write_ne t peer other, get]

end

section Values

variable [DecidableEq ν]

theorem mem_merge : w ∈ t.merge t' ↔ w ∈ t ∨ w ∈ t' := by
  rw [merge, List.mem_append, List.mem_filter, decide_eq_true_eq]
  exact ⟨fun mem => mem.imp id And.left,
    fun mem => or_iff_not_imp_left.mpr fun other => ⟨mem.resolve_left other, other⟩⟩

/-- After a put the key was written with the value, by this write or before. -/
theorem put_cases (t : Register κ ν) (peer : Nat) (k : κ) (v : ν) :
    (t.put peer k v = t ∧ t.get k = some v) ∨ t.put peer k v = t.write peer k (some v) := by
  unfold put
  split
  · next held => exact .inl ⟨rfl, held⟩
  · exact .inr rfl

theorem subset_put {v : ν} : t ⊆ t.put peer k v := by
  obtain ⟨same, _⟩ | written := put_cases t peer k v
  · rw [same]
    exact List.Subset.refl _
  · rw [written]
    exact fun w mem => mem_write.mpr (.inl mem)

theorem put_mem {peer : Nat} {k : κ} {v : ν} : ∃ w ∈ t.put peer k v, w.key = k ∧ w.value = some v := by
  obtain ⟨same, held⟩ | written := put_cases t peer k v
  · rw [same]
    exact get_mem held
  · rw [written]
    exact ⟨_, mem_write.mpr (.inr rfl), rfl, rfl⟩

end Values

theorem delete_cases (t : Register κ ν) (peer : Nat) (k : κ) :
    t.delete peer k = t ∨ (∃ v, t.get k = some v) ∧ t.delete peer k = t.write peer k none := by
  unfold delete
  split
  · next held => exact .inr ⟨Option.isSome_iff_exists.mp held, rfl⟩
  · exact .inl rfl

theorem subset_delete : t ⊆ t.delete peer k := by
  obtain same | ⟨_, written⟩ := delete_cases t peer k
  · rw [same]
    exact List.Subset.refl _
  · rw [written]
    exact fun w mem => mem_write.mpr (.inl mem)

theorem get_delete_self (t : Register κ ν) (peer : Nat) (k : κ) : (t.delete peer k).get k = none := by
  unfold delete
  split
  · exact get_write_self t peer k none
  · next empty => exact Option.not_isSome_iff_eq_none.mp empty

theorem get_delete_ne (t : Register κ ν) (peer : Nat) {k' : κ} (other : k' ≠ k) :
    (t.delete peer k).get k' = t.get k' := by
  unfold delete
  split
  · exact get_write_ne t peer other none
  · rfl

/-- What deleting some keys leaves of each. -/
theorem get_deletes (t : Register κ ν) (peer : Nat) (keys : List κ) (k : κ) :
    (keys.foldl (fun t k => t.delete peer k) t).get k = if k ∈ keys then none else t.get k := by
  induction keys generalizing t with
  | nil => simp
  | cons key keys ih =>
      rw [List.foldl_cons, ih]
      by_cases later : k ∈ keys
      · rw [if_pos later, if_pos (List.mem_cons_of_mem _ later)]
      · rw [if_neg later]
        by_cases same : k = key
        · rw [same, get_delete_self, if_pos List.mem_cons_self]
        · rw [get_delete_ne t peer same, if_neg (by simp [same, later])]

/-- What deleting some keys adds: writes of nothing, to keys of them that were held. -/
theorem mem_deletes {keys : List κ} (mem : w ∈ keys.foldl (fun t k => t.delete peer k) t) :
    w ∈ t ∨ w.value = none ∧ w.key ∈ keys ∧ ∃ v, t.get w.key = some v := by
  induction keys generalizing t with
  | nil => exact .inl mem
  | cons key keys ih =>
      rw [List.foldl_cons] at mem
      obtain old | ⟨none_, listed, v, held⟩ := ih mem
      · obtain same | ⟨held, written⟩ := delete_cases t peer key
        · exact .inl (same ▸ old)
        · rw [written] at old
          obtain old | rfl := mem_write.mp old
          · exact .inl old
          · exact .inr ⟨rfl, .head _, held⟩
      · refine .inr ⟨none_, .tail _ listed, v, ?_⟩
        by_cases same : w.key = key
        · rw [same, get_delete_self] at held
          cases held
        · rw [get_delete_ne t peer same] at held
          exact held

theorem subset_deletes {keys : List κ} : t ⊆ keys.foldl (fun t k => t.delete peer k) t := by
  induction keys generalizing t with
  | nil => exact List.Subset.refl _
  | cons key keys ih => exact List.Subset.trans subset_delete ih

end Register

end Khor
