/-
Module: Khor.Net.Settle
Purpose: Which roster counts among those a table holds, how a machine stands under it, and whose root two
  machines that pair go on under.
Trusted boundary: none
Main exports: newest, settle, claimedRoot, Standing, standing
-/
import Khor.Net.Trust

namespace Khor.Net

/-- The root a roster claims, read without verifying anything. -/
def claimedRoot (bytes : List UInt8) : Option Id :=
  match frame ROSTER_MAGIC bytes with
  | .error _ => none
  | .ok (body, _, _) =>
      match decode rosterBody body with
      | .error _ => none
      | .ok b => some b.root

def FRESH_DAYS : Nat := 30

def DAY_MS : Nat := 86400000

namespace Roster

/-- Whether this roster certifies nobody but `owner`. -/
def lone (r : Roster) (owner : Id) : Bool := r.certs.all (·.subject = owner)

def isStale (r : Roster) (nowMs : UInt64) : Bool :=
  FRESH_DAYS * DAY_MS < nowMs.toNat - r.issuedMs.toNat

/-- What rosters of one root are compared by: the `seq`, then the date, then the bytes. -/
def rank (r : Roster) : ℕ ×ₗ (ℕ ×ₗ List ℕ) :=
  toLex (r.seq.toNat, toLex (r.issuedMs.toNat, r.bytes.map UInt8.toNat))

end Roster

section Scheme

variable (scheme : Scheme)

/-- The newest roster among the candidates that verifies under `root`. -/
def newest (candidates : List (List UInt8)) (root : Id) : Option Roster :=
  (candidates.filterMap fun bytes => (verifyRoster scheme bytes root).toOption).argmax Roster.rank

/-- How another machine stands with this one. -/
inductive Standing where
  | legacy
  | trusted
  | pending
  | revoked
deriving DecidableEq

/-- The trust question; `presented` is the certificate on the machine's row. -/
def standing (roster : Option Roster) (anchor : Option Id) (id : Id) (presented : Option (List UInt8))
    (nowMs : UInt64) : Standing :=
  match anchor, roster with
  | none, _ => .legacy
  | some _, none => .pending
  | some anchor, some r =>
      if r.isRevoked id then .revoked
      else if r.admits id nowMs then .trusted
      else if !r.isStale nowMs && presented.any (fun bytes =>
          (verifyCert scheme bytes anchor).toOption.any fun c =>
            c.subject = id && r.seq < c.seq && c.liveAt nowMs) then .trusted
      else .pending

end Scheme

/-- What a pairing does to this side's root. -/
inductive Settle where
  | keep
  | adopt
  | clash

/-- How two machines' roots meet when they pair: one rule, run on both sides. -/
def settle (mine : Option Roster) (me : Id) (theirs : Option Roster) (them : Id) (iDialed : Bool) :
    Settle :=
  match mine, theirs with
  | _, none => .keep
  | none, some _ => .adopt
  | some m, some t =>
      if m.root = t.root then .keep
      else
        match m.lone me, t.lone them with
        | true, false => .adopt
        | false, true => .keep
        | true, true => if iDialed then .adopt else .keep
        | false, false => .clash

section Scheme

variable {scheme : Scheme}

theorem claimedRoot_ok {bytes body signed : List UInt8} {sig : Vector UInt8 SIG} {b : RosterBody}
    (framed : frame ROSTER_MAGIC bytes = .ok (body, signed, sig)) (decoded : decode rosterBody body = .ok b) :
    claimedRoot bytes = some b.root := by
  unfold claimedRoot
  simp only [framed, decoded]

variable {root : Id} {r : Roster} {candidates : List (List UInt8)}

/-- A roster that verified is under the root, and these are its bytes. -/
theorem verifyRoster_root {bytes : List UInt8} (verified : verifyRoster scheme bytes root = .ok r) :
    r.root = root ∧ r.bytes = bytes ∧ claimedRoot bytes = some root := by
  unfold verifyRoster at verified
  split at verified
  · cases verified
  · next framed =>
    split at verified
    · cases verified
    · next b decoded =>
      have claims := claimedRoot_ok framed decoded
      split at verified
      · cases verified
      · next same =>
        have same : b.root = root := Decidable.not_not.1 same
        split at verified
        · cases verified
        · split at verified
          · cases verified
          · cases verified
            exact ⟨same, rfl, same ▸ claims⟩

theorem rank_bytes {r' : Roster} (same : r.rank = r'.rank) : r.bytes = r'.bytes := by
  have bytes : r.bytes.map UInt8.toNat = r'.bytes.map UInt8.toNat := by
    have inner := congrArg Prod.snd (toLex.injective same)
    exact congrArg Prod.snd (toLex.injective inner)
  exact List.map_injective_iff.2 (fun a b same => UInt8.toNat_inj.1 same) bytes

/-- A candidate that counts. -/
def Counts (scheme : Scheme) (root : Id) (candidates : List (List UInt8)) (r : Roster) : Prop :=
  ∃ bytes ∈ candidates, verifyRoster scheme bytes root = .ok r

theorem Counts.unique {candidates' : List (List UInt8)} {r' : Roster} (one : Counts scheme root candidates r)
    (two : Counts scheme root candidates' r') (same : r.rank = r'.rank) : r = r' := by
  obtain ⟨bytes, _, verified⟩ := one
  obtain ⟨bytes', _, verified'⟩ := two
  have bytes_eq : bytes = bytes' :=
    (verifyRoster_root verified).2.1.symm.trans ((rank_bytes same).trans (verifyRoster_root verified').2.1)
  rw [bytes_eq, verified'] at verified
  exact (Except.ok.inj verified).symm

theorem mem_verified : r ∈ candidates.filterMap (fun bytes => (verifyRoster scheme bytes root).toOption) ↔
      Counts scheme root candidates r := by
  simp only [List.mem_filterMap, Counts]
  refine exists_congr fun bytes => and_congr_right fun _ => ?_
  cases verifyRoster scheme bytes root <;> simp [Except.toOption]

/-- The newest roster is the one that counts with nothing above it. -/
theorem newest_eq_some : newest scheme candidates root = some r ↔
      Counts scheme root candidates r ∧ ∀ r', Counts scheme root candidates r' → r'.rank ≤ r.rank := by
  constructor
  · intro newest_
    refine ⟨mem_verified.1 (List.argmax_mem newest_), fun r' counts => ?_⟩
    exact List.le_of_mem_argmax (mem_verified.2 counts) newest_
  · rintro ⟨counts, above⟩
    cases found : newest scheme candidates root with
    | none =>
        have none_ := List.argmax_eq_none.1 found
        have := mem_verified.2 counts
        rw [none_] at this
        cases this
    | some r' =>
        have counts' := mem_verified.1 (List.argmax_mem found)
        have le : r.rank ≤ r'.rank := List.le_of_mem_argmax (mem_verified.2 counts) found
        rw [counts'.unique counts (le_antisymm (above r' counts') le)]

theorem newest_root (found : newest scheme candidates root = some r) : r.root = root := by
  obtain ⟨bytes, _, verified⟩ := (newest_eq_some.1 found).1
  exact (verifyRoster_root verified).1

end Scheme

end Khor.Net
