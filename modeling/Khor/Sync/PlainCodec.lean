/-
Module: Khor.Sync.PlainCodec
Purpose: One codec that keeps what it encodes: numbers in unary, each closed by a zero byte, behind a
  count. It shows that the laws the live path asks of a codec can be met, and runs on small documents.
Trusted boundary: none
Main exports: plainCodec, plainCodec_lawful
-/
import Khor.Sync.Wire

namespace Khor.Sync

/-- Numbers as bytes, each in unary and closed by a zero. -/
def putNats : List Nat → List UInt8
  | [] => []
  | n :: ns => List.replicate n 1 ++ 0 :: putNats ns

/-- Read numbers back; `n` is what has been counted of the next one. -/
def getNats (n : Nat) : List UInt8 → Option (List Nat)
  | [] => if n = 0 then some [] else none
  | b :: rest =>
      if b = 0 then (getNats 0 rest).map (n :: ·)
      else getNats (n + 1) rest

/-- Ones are counted up to the number they end. -/
theorem getNats_replicate (k n : Nat) (rest : List UInt8) :
    getNats n (List.replicate k 1 ++ rest) = getNats (n + k) rest := by
  induction k generalizing n with
  | zero => rfl
  | succ k ih =>
      rw [List.replicate_succ, List.cons_append, getNats, if_neg (by decide), ih]
      congr 1
      omega

/-- Numbers come back from their bytes. -/
theorem getNats_putNats (ns : List Nat) : getNats 0 (putNats ns) = some ns := by
  induction ns with
  | nil => rfl
  | cons n ns ih =>
      rw [putNats, getNats_replicate, getNats, if_pos rfl, ih, Nat.zero_add, Option.map_some]

/-! ### Versions -/

/-- One entry: the writer, and the counter as a difference. -/
def putEntries : List (Sigma fun _ : Writer => Int) → List Nat
  | [] => []
  | e :: es => e.1 :: e.2.toNat :: (-e.2).toNat :: putEntries es

/-- Read the entries of a version. -/
def getEntries : List Nat → Option (List (Sigma fun _ : Writer => Int))
  | [] => some []
  | w :: up :: down :: rest => (getEntries rest).map (⟨w, (up : Int) - down⟩ :: ·)
  | _ => none

theorem getEntries_putEntries (es : List (Sigma fun _ : Writer => Int)) :
    getEntries (putEntries es) = some es := by
  induction es with
  | nil => rfl
  | cons e es ih =>
      have split : ((e.2.toNat : Int) - ((-e.2).toNat : Int)) = e.2 := by omega
      rw [putEntries, getEntries, ih, Option.map_some, split]

/-! ### Operations -/

/-- The dependencies of an operation, in pairs. -/
def putDeps : List (Writer × Nat) → List Nat
  | [] => []
  | d :: ds => d.1 :: d.2 :: putDeps ds

/-- Read `k` dependencies off the front. -/
def getDeps : Nat → List Nat → Option (List (Writer × Nat) × List Nat)
  | 0, rest => some ([], rest)
  | k + 1, w :: n :: rest => (getDeps k rest).map fun (ds, rest) => ((w, n) :: ds, rest)
  | _ + 1, _ => none

/-- A block of dependencies is read back, and what follows it is left. -/
theorem getDeps_putDeps (ds : List (Writer × Nat)) (rest : List Nat) :
    getDeps ds.length (putDeps ds ++ rest) = some (ds, rest) := by
  induction ds with
  | nil => rfl
  | cons d ds ih =>
      simp only [putDeps, List.length_cons, List.cons_append, getDeps, ih, Option.map_some]

/-- Each operation with the number of its dependencies. -/
def putOps : List SyncOp → List Nat
  | [] => []
  | o :: os =>
      o.writer :: o.counter :: o.body :: o.deps.length :: (putDeps o.deps ++ putOps os)

/-- Read `k` operations. -/
def getOps : Nat → List Nat → Option (List SyncOp)
  | 0, [] => some []
  | k + 1, writer :: counter :: body :: deps :: rest =>
      match getDeps deps rest with
      | some (deps, rest) =>
          (getOps k rest).map ({ writer := writer, counter := counter, deps := deps, body := body } :: ·)
      | none => none
  | _, _ => none

theorem getOps_putOps (os : List SyncOp) : getOps os.length (putOps os) = some os := by
  induction os with
  | nil => rfl
  | cons o os ih =>
      simp only [putOps, List.length_cons, getOps, getDeps_putDeps, ih, Option.map_some]

/-! ### The codec -/

/-- The codec: a count in front, then what it counts. -/
def plainCodec : Codec where
  encodeVersion v := putNats (v.entries.length :: putEntries v.entries)
  decodeVersion bytes :=
    match getNats 0 bytes with
    | some (_ :: entries) => (getEntries entries).map List.toAList
    | _ => none
  encodeOps ops := putNats (ops.length :: putOps ops)
  decodeOps bytes :=
    match getNats 0 bytes with
    | some (count :: ops) => getOps count ops
    | _ => none
  items ops := ops.length

theorem putNats_cons_ne_nil (n : Nat) (ns : List Nat) : putNats (n :: ns) ≠ [] := by
  simp [putNats]

/-- What is written is read back, and a delta holds just what its reader lacks. -/
theorem plainCodec_lawful : plainCodec.Lawful where
  version v := by
    refine ⟨v.entries.toAList, ?_, fun w => ?_⟩
    · simp only [plainCodec, getNats_putNats, getEntries_putEntries, Option.map_some]
    · rw [VersionVector.get, AList.lookup_to_alist]
      rfl
  versionHeader _ := putNats_cons_ne_nil _ _
  ops ops := by
    refine ⟨ops, ?_, fun _ => Iff.rfl⟩
    simp only [plainCodec, getNats_putNats, getOps_putOps]
  opsHeader _ := putNats_cons_ne_nil _ _

end Khor.Sync
