/-
Module: Khor.Net.Revocation
Purpose: When a revocation lasts. A roster ranks by its number, and root holders that have not seen each
  other's rosters sign the same numbers: a revocation is undone by the next roster of a holder that has not
  received it. In a run where no such roster ranks above it, it lasts until somebody who has it admits again.
Trusted boundary: only root holders sign with the root; different rosters get different keys
Main exports: SignedOver, Chain, Timely, ListedFor, Chain.revocation
-/
import Khor.Net.Received

namespace Khor.Net

section Signings

variable (scheme : Scheme) (key : scheme.SecretKey)

namespace Signing

def Revokes (s : Signing) (x : Id) : Prop := ∃ nowMs, Change.revoke nowMs x ∈ s.changes

def Admits (s : Signing) (x : Id) : Prop := ∃ nowMs m, Change.admitMember nowMs m ∈ s.changes ∧ m.subject = x

/-- The signer had received this roster. -/
def Saw (s : Signing) (r : Roster) : Prop :=
  Received scheme key s.seen r ∨ verified scheme key r.bytes = some r ∧ s.offered = r.bytes

end Signing

/-- What is signed with the root, over what was signed before. -/
structure SignedOver (earlier : List Signing) (s : Signing) : Prop where
  ok : verified scheme key s.roster.bytes = some s.roster
  above : ∀ r, s.Saw scheme key r → r.rank ≤ s.base.rank
  based : (∃ s' ∈ earlier, s'.roster = s.base) ∨ s.base.revoked = [] ∧ ∀ r, ¬s.Saw scheme key r
  rises : s.base.rank ≤ s.roster.rank
  lists : ∀ x, s.Revokes x → x ∈ s.roster.revoked
  keeps : ∀ x ∈ s.base.revoked, ¬s.Admits x → x ∈ s.roster.revoked
  only : ∀ x ∈ s.roster.revoked, x ∈ s.base.revoked ∨ s.Revokes x

/-- What was signed, the latest first. -/
def Chain : List Signing → Prop
  | [] => True
  | s :: earlier => SignedOver scheme key earlier s ∧ Chain earlier

/-- No roster that leaves a revocation out ranks above it unless its signer had received it, whichever of the
two was signed first. -/
def Timely (signed : List Signing) : Prop :=
  ∀ ρ ∈ signed, ∀ s ∈ signed, ∀ x, ρ.Revokes x → x ∉ s.roster.revoked → ρ.roster.rank < s.roster.rank →
    s.Saw scheme key ρ.roster

variable {scheme key} {signed : List Signing}

variable {s : Signing} {x : Id} {r : Roster} {c : Change} {nowMs : UInt64} {m : Machine}

theorem Chain.mem (chain : Chain scheme key signed) (mem : s ∈ signed) :
    ∃ earlier, earlier ⊆ signed ∧ SignedOver scheme key earlier s := by
  induction signed with
  | nil => cases mem
  | cons head earlier ih =>
      obtain rfl | mem := List.mem_cons.mp mem
      · exact ⟨earlier, List.subset_cons_self _ _, chain.1⟩
      · obtain ⟨before, sub, signing⟩ := ih chain.2 mem
        exact ⟨before, List.Subset.trans sub (List.subset_cons_self _ _), signing⟩

/-- The two signings whose rosters rank the same signed the same roster. -/
theorem Chain.rank (chain : Chain scheme key signed) {s' : Signing} (mem : s ∈ signed) (mem' : s' ∈ signed)
    (same : s.roster.rank = s'.roster.rank) : s.roster = s'.roster := by
  obtain ⟨_, _, signing⟩ := chain.mem mem
  obtain ⟨_, _, signing'⟩ := chain.mem mem'
  exact verified_rank signing.ok signing'.ok same

/-- A revocation stays in every roster above it, until one is signed by an admission that has seen it. -/
theorem revoked_above (chain : Chain scheme key signed) (timely : Timely scheme key signed) {ρ : Signing}
    (mem : ρ ∈ signed) (revokes : ρ.Revokes x) (unadmitted : ∀ s ∈ signed, s.Admits x → ¬s.Saw scheme key ρ.roster) :
    ∀ s ∈ signed, ρ.roster.rank ≤ s.roster.rank → x ∈ s.roster.revoked := by
  have here : x ∈ ρ.roster.revoked := by
    obtain ⟨_, _, signing⟩ := chain.mem mem
    exact signing.lists x revokes
  -- The induction is on what was signed so far; each roster was signed over an earlier one.
  suffices on : ∀ l, l ⊆ signed → Chain scheme key l → ∀ s ∈ l, ρ.roster.rank ≤ s.roster.rank →
      x ∈ s.roster.revoked from on signed (List.Subset.refl _) chain
  intro l
  induction l with
  | nil =>
      intro _ _ s inside
      cases inside
  | cons head earlier ih =>
      intro sub chain' s inside le
      obtain rfl | inside := List.mem_cons.mp inside
      · by_contra missing
        have listed : s ∈ signed := sub (.head _)
        have less : ρ.roster.rank < s.roster.rank := by
          refine lt_of_le_of_ne le fun same => missing ?_
          rw [← chain.rank mem listed same]
          exact here
        have saw := timely ρ mem s listed x revokes missing less
        obtain ⟨s', before, base⟩ | ⟨_, none_⟩ := chain'.1.based
        · have above := chain'.1.above _ saw
          rw [← base] at above
          have kept := ih (List.Subset.trans (List.subset_cons_self _ _) sub) chain'.2 s' before above
          rw [base] at kept
          exact missing (chain'.1.keeps x kept fun admits => unadmitted s listed admits saw)
        · exact none_ _ saw
      · exact ih (List.Subset.trans (List.subset_cons_self _ _) sub) chain'.2 s inside le

/-- The revocation that a machine is listed for: the roster is the one that revoked it, or was signed over one that lists
it for the same revocation. -/
inductive ListedFor (signed : List Signing) (x : Id) (ρ : Signing) : Roster → Prop where
  | revoked (there : ρ ∈ signed) (revokes : ρ.Revokes x) : ListedFor signed x ρ ρ.roster
  | kept {s : Signing} (there : s ∈ signed) (listed : x ∈ s.roster.revoked) (base : ListedFor signed x ρ s.base) :
      ListedFor signed x ρ s.roster

theorem ListedFor.mono {signed signed' : List Signing} {x : Id} {ρ : Signing} {r : Roster}
    (listed : ListedFor signed x ρ r) (more : signed ⊆ signed') : ListedFor signed' x ρ r := by
  induction listed with
  | revoked there revokes => exact .revoked (more there) revokes
  | kept there listed _ ih => exact .kept (more there) listed ih

/-- A roster that lists a machine as revoked goes back to a revocation of it. -/
theorem Chain.revocation (chain : Chain scheme key signed) (mem : s ∈ signed) (listed : x ∈ s.roster.revoked) :
    ∃ ρ ∈ signed, ρ.Revokes x ∧ ListedFor signed x ρ s.roster ∧ ρ.roster.rank ≤ s.roster.rank := by
  induction signed generalizing s with
  | nil => cases mem
  | cons head earlier ih =>
      obtain rfl | mem := List.mem_cons.mp mem
      · obtain inherited | revokes := chain.1.only x listed
        · obtain ⟨s', before, base⟩ | ⟨none_, _⟩ := chain.1.based
          · obtain ⟨ρ, there, revokes, for_, le⟩ := ih chain.2 before (base.symm ▸ inherited)
            exact ⟨ρ, .tail _ there, revokes,
              .kept (.head _) listed (base ▸ for_.mono (List.subset_cons_self _ _)),
              le.trans (base ▸ chain.1.rises)⟩
          · rw [none_] at inherited
            cases inherited
        · exact ⟨s, .head _, revokes, .revoked (.head _) revokes, le_rfl⟩
      · obtain ⟨ρ, there, revokes, for_, le⟩ := ih chain.2 mem listed
        exact ⟨ρ, .tail _ there, revokes, for_.mono (List.subset_cons_self _ _), le⟩

/-! ### What one change signs -/

/-- The revoked list after a change. -/
def revokedAfter (revoked : List Id) : Change → List Id
  | .admitMember _ m => revoked.filter (· ≠ m.subject)
  | .revoke _ id => if revoked.contains id then revoked else revoked ++ [id]
  | .refresh _ => revoked

theorem verified_change {cur : Roster} (ok : verified scheme key (cur.change scheme key c) = some r) :
    r.seq = cur.seq + 1 ∧ r.revoked = revokedAfter cur.revoked c := by
  cases c with
  | admitMember | revoke | refresh =>
      obtain ⟨seq, _, revoked⟩ := verified_signRoster ok
      exact ⟨seq, revoked⟩

theorem rank_change {cur : Roster} (seq : r.seq = cur.seq + 1) (fits : cur.seq.toNat + 1 < 2 ^ 64) :
    cur.rank < r.rank := by
  refine lt_of_seq (UInt64.lt_iff_toNat_lt.mpr ?_)
  rw [seq, UInt64.toNat_add]
  have one : (1 : UInt64).toNat = 1 := rfl
  omega

theorem mem_revokedAfter_revoke (revoked : List Id) (nowMs : UInt64) (id : Id) :
    id ∈ revokedAfter revoked (.revoke nowMs id) := by
  unfold revokedAfter
  dsimp only
  split
  · next has => exact List.contains_iff_mem.mp has
  · exact List.mem_append_right _ (List.mem_singleton_self id)

theorem mem_revokedAfter_keeps {revoked : List Id} (mem : x ∈ revoked)
    (other : ∀ nowMs m, c = .admitMember nowMs m → m.subject ≠ x) : x ∈ revokedAfter revoked c := by
  cases c with
  | admitMember nowMs m =>
      exact List.mem_filter.mpr ⟨mem, decide_eq_true (other nowMs m rfl).symm⟩
  | revoke nowMs id =>
      unfold revokedAfter
      dsimp only
      split
      · exact mem
      · exact List.mem_append_left _ mem
  | refresh nowMs => exact mem

theorem mem_revokedAfter_only {revoked : List Id} (mem : x ∈ revokedAfter revoked c) :
    x ∈ revoked ∨ ∃ nowMs, c = .revoke nowMs x := by
  cases c with
  | admitMember nowMs m => exact .inl (List.mem_filter.mp mem).1
  | revoke nowMs id =>
      unfold revokedAfter at mem
      dsimp only at mem
      split at mem
      · exact .inl mem
      · obtain old | new := List.mem_append.mp mem
        · exact .inl old
        · rw [List.mem_singleton.mp new]
          exact .inr ⟨nowMs, rfl⟩
  | refresh nowMs => exact .inl mem

theorem verified_nil : verified scheme key [] = none := rfl

/-- The first roster of a root revokes nobody. -/
theorem verified_genesis {members : List Member}
    (ok : verified scheme key (genesis scheme key nowMs members) = some r) : r.revoked = [] :=
  (verified_signRoster ok).2.2

/-- What a machine knows of what was signed. -/
structure Knows (scheme : Scheme) (key : scheme.SecretKey) (signed : List Signing) (m : Machine) : Prop where
  kept : Kept scheme key m.table
  apart : Apart m.table
  known : ∀ r, Received scheme key m.table r → ∃ s ∈ signed, s.roster = r

theorem Knows.newest (knows : Knows scheme key signed m)
    (found : m.table.newestIn scheme (scheme.public key) = some r) :
    verified scheme key r.bytes = some r ∧ (∃ s ∈ signed, s.roster = r) ∧
      ∀ r', Received scheme key m.table r' → r'.rank ≤ r.rank := by
  obtain ⟨received, above⟩ := (newest_received knows.kept knows.apart).mp found
  exact ⟨received.1, knows.known r received, above⟩

theorem Knows.none_newest (knows : Knows scheme key signed m)
    (none_ : m.table.newestIn scheme (scheme.public key) = none) (r : Roster) : ¬Received scheme key m.table r := by
  intro received
  obtain ⟨first, inside, above⟩ := exists_newest received
  rw [newest_of_received knows.kept knows.apart inside above] at none_
  cases none_

/-- What is signed without anything offered was seen in the table. -/
theorem saw_of_unoffered (none_ : s.offered = []) (saw : s.Saw scheme key r) : Received scheme key s.seen r := by
  obtain received | ⟨ok, offered⟩ := saw
  · exact received
  · rw [← offered, none_, verified_nil] at ok
    cases ok

/-- One change over the newest roster, or over a first one. -/
theorem signNext_over (knows : Knows scheme key signed m) (signs : m.signNext scheme key nowMs c = some s)
    (fits : s.base.seq.toNat + s.changes.length < 2 ^ 64) : SignedOver scheme key signed s ∧ s.changes = [c] := by
  unfold Machine.signNext at signs
  obtain ⟨cur, signing, signs⟩ := Option.bind_eq_some_iff.mp signs
  obtain ⟨r, ok, signs⟩ := Option.bind_eq_some_iff.mp signs
  cases signs
  obtain ⟨seq, revoked⟩ := verified_change ok
  have bytes_ := (verified_bytes ok).2
  refine ⟨⟨?_, ?_, ?_, (rank_change seq fits).le, ?_, ?_, ?_⟩, rfl⟩
  · change verified scheme key r.bytes = some r
    rw [bytes_]
    exact ok
  · intro r' saw
    have received := saw_of_unoffered rfl saw
    cases found : m.table.newestIn scheme (scheme.public key) with
    | some r₀ =>
        rw [found] at signing
        cases signing
        exact (knows.newest found).2.2 r' received
    | none => exact absurd received (knows.none_newest found r')
  · cases found : m.table.newestIn scheme (scheme.public key) with
    | some r₀ =>
        rw [found] at signing
        cases signing
        exact .inl (knows.newest found).2.1
    | none =>
        rw [found] at signing
        exact .inr ⟨verified_genesis signing, fun r' saw => knows.none_newest found r' (saw_of_unoffered rfl saw)⟩
  · rintro x ⟨now', mem⟩
    cases List.mem_singleton.mp mem
    exact revoked ▸ mem_revokedAfter_revoke _ _ _
  · intro x mem unadmitted
    rw [revoked]
    exact mem_revokedAfter_keeps mem fun now' m' is same =>
      unadmitted ⟨now', m', List.mem_singleton.mpr is.symm, same⟩
  · intro x mem
    rw [revoked] at mem
    obtain old | ⟨now', is⟩ := mem_revokedAfter_only mem
    · exact .inl old
    · exact .inr ⟨now', List.mem_singleton.mpr is.symm⟩

/-- What admitting the parties of a pairing makes of a roster. -/
structure Admitted (scheme : Scheme) (key : scheme.SecretKey) (base : Roster) (changes : List Change) (r : Roster) : Prop where
  admits : ∀ c ∈ changes, ∃ nowMs m, c = .admitMember nowMs m
  ok : verified scheme key base.bytes = some base → verified scheme key r.bytes = some r
  rises : base.seq.toNat + changes.length < 2 ^ 64 → base.rank ≤ r.rank ∧
    r.seq.toNat = base.seq.toNat + changes.length
  keeps : ∀ x ∈ base.revoked, (∀ nowMs m, Change.admitMember nowMs m ∈ changes → m.subject ≠ x) → x ∈ r.revoked
  only : ∀ x ∈ r.revoked, x ∈ base.revoked
  same : changes = [] → r = base

theorem admitParties_admitted {presented : Id → Option (List UInt8)} {parties : List Id} {base : Roster}
    {changes : List Change} (is : admitParties scheme key nowMs presented parties base = some (changes, r)) :
    Admitted scheme key base changes r := by
  induction parties generalizing base r changes with
  | nil =>
      cases is
      exact ⟨nofun, id, fun _ => ⟨le_rfl, rfl⟩, fun _ mem _ => mem, fun _ mem => mem, fun _ => rfl⟩
  | cons party rest ih =>
      unfold admitParties at is
      split at is
      · exact ih is
      · obtain ⟨r₁, ok, is⟩ := Option.bind_eq_some_iff.mp is
        obtain ⟨⟨changes', r'⟩, later, is⟩ := Option.bind_eq_some_iff.mp is
        cases is
        obtain ⟨seq, revoked⟩ := verified_change ok
        have bytes_ := (verified_bytes ok).2
        have rest_ := ih later
        refine ⟨?_, fun _ => rest_.ok (bytes_.symm ▸ ok), ?_, ?_, ?_, nofun⟩
        · rintro c mem
          obtain rfl | mem := List.mem_cons.mp mem
          · exact ⟨_, _, rfl⟩
          · exact rest_.admits c mem
        · intro fits
          rw [List.length_cons] at fits
          have less := rank_change seq (by omega)
          have number : r₁.seq.toNat = base.seq.toNat + 1 := by
            have one : (1 : UInt64).toNat = 1 := rfl
            rw [seq, UInt64.toNat_add]
            omega
          obtain ⟨le, count⟩ := rest_.rises (by omega)
          exact ⟨less.le.trans le, by rw [List.length_cons]; omega⟩
        · intro x mem unadmitted
          refine rest_.keeps x ?_ fun now' m' mem' => unadmitted now' m' (.tail _ mem')
          rw [revoked]
          exact mem_revokedAfter_keeps mem fun now' m' is => unadmitted now' m' (is ▸ List.mem_cons_self)
        · intro x mem
          have first := rest_.only x mem
          rw [revoked] at first
          obtain old | ⟨_, is⟩ := mem_revokedAfter_only first
          · exact old
          · cases is

end Signings

end Khor.Net
