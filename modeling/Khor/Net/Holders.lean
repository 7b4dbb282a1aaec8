/-
Module: Khor.Net.Holders
Purpose: Every run of a network's holders: each event keeps the tables and what was signed in order, and so a
  revocation that no unseen roster ranks above is in force on every machine that has received it.
Trusted boundary: only root holders sign with the root; different rosters get different keys
Main exports: Permitted, Sound, Advance, revocation_lasts
-/
import Khor.Net.Revocation
import Khor.Net.RosterChain

namespace Khor.Net

variable {ι : Type} [DecidableEq ι]

section World

variable (scheme : Scheme) (key : scheme.SecretKey)

/-- No two rosters of the machines' tables stand under one key. -/
def World.Apart (w : World ι) : Prop :=
  ∀ i j, ∀ x ∈ (w.machine i).table, ∀ y ∈ (w.machine j).table, ∀ seq tail, x.key = .version seq tail →
    y.key = x.key → ∀ bytes bytes', x.value = some bytes → y.value = some bytes' → bytes = bytes'

/-- Nobody but the holders signs with the root. -/
def Genuine (signed : List Signing) (bytes : List UInt8) : Prop :=
  ∀ r, verified scheme key bytes = some r → ∃ s ∈ signed, s.roster = r

/-- What the network's machines can be asked: rosters that were signed, and pairings that go on under its root. -/
def Offered (w : World ι) : Event ι → Prop
  | .certifySelf i _ => (w.machine i).holdsRoot scheme key = true
  | .takeVouch i _ bytes _ _ => (w.machine i).anchor = some (scheme.public key) ∧ Genuine scheme key w.signed bytes
  | .preparePair i _ remote dialed offered _ _ => Genuine scheme key w.signed offered ∧
      ∀ anchor desired, (w.machine i).plan scheme remote dialed offered = some (anchor, desired) →
        anchor = some (scheme.public key)
  | _ => True

/-- What an event signs. -/
def signedBy (w : World ι) (e : Event ι) : List Signing :=
  match e.done scheme key w with
  | some (_, some d) => d.signed
  | _ => []

/-- An event of the network: what it signs has a number, and a key of its own. -/
structure Permitted (w : World ι) (e : Event ι) : Prop where
  offered : Offered scheme key w e
  numbered : ∀ s ∈ signedBy scheme key w e, s.base.seq.toNat + s.changes.length < 2 ^ 64
  apart : (step scheme key w e).Apart

/-- An event after which no roster that leaves a revocation out ranks above it, unless its signer had received
it. -/
def Orderly (w : World ι) (e : Event ι) : Prop :=
  Permitted scheme key w e ∧ Timely scheme key (step scheme key w e).signed

/-- A settlement that is ready goes on under the root, with a roster that was signed. -/
structure Settled (signed : List Signing) (plan : Settlement) : Prop where
  root : plan.desiredAnchor = some (scheme.public key)
  desired : ∀ r, plan.desired = some r → verified scheme key r.bytes = some r ∧ ∃ s ∈ signed, s.roster = r
  input : Genuine scheme key signed plan.input
  newer : ∀ r, verified scheme key plan.input = some r → ∃ d, plan.desired = some d ∧ r.rank ≤ d.rank

/-- What holds of the network in every state reached. -/
structure Sound (w : World ι) : Prop where
  apart : w.Apart
  kept : ∀ i, Kept scheme key (w.machine i).table
  sent : ∀ t ∈ w.sent, Kept scheme key t ∧ ∃ i, t ⊆ (w.machine i).table
  known : ∀ i r, Received scheme key (w.machine i).table r → ∃ s ∈ w.signed, s.roster = r
  chain : Chain scheme key w.signed
  stored : ∀ s ∈ w.signed, ∀ x, s.Revokes x → ∃ i, Received scheme key (w.machine i).table s.roster
  plans : ∀ i plan, (w.machine i).settlement = some plan → Settled scheme key w.signed plan

/-- What an operation of one machine may do. -/
structure Advance (signed : List Signing) (m : Machine) (d : Done) : Prop where
  kept : Kept scheme key d.machine.table
  more : m.table ⊆ d.machine.table
  known : ∀ r, Received scheme key d.machine.table r → ∃ s ∈ d.signed ++ signed, s.roster = r
  chain : Chain scheme key (d.signed ++ signed)
  stored : ∀ s ∈ d.signed, ∀ x, s.Revokes x → Received scheme key d.machine.table s.roster
  plans : ∀ plan, d.machine.settlement = some plan → Settled scheme key (d.signed ++ signed) plan

/-- A network before its first roster: tables without one, and nothing under way. -/
structure Start (w : World ι) : Prop where
  sent : w.sent = []
  signed : w.signed = []
  apart : w.Apart
  idle : ∀ i, (w.machine i).settlement = none
  none_ : ∀ i, ∀ x ∈ (w.machine i).table, ∀ bytes, x.value = some bytes → verified scheme key bytes = none
  dropped : ∀ i, ∀ x ∈ (w.machine i).table, x.value = none →
    ∃ y ∈ (w.machine i).table, y.key = x.key ∧ ∃ bytes, y.value = some bytes

variable {scheme key} {w : World ι} {signed : List Signing} {m : Machine}

omit [DecidableEq ι] in
theorem Start.sound (h : Start scheme key w) : Sound scheme key w where
  apart := h.apart
  kept := by
    intro i x mem
    refine ⟨fun _ _ _ bytes value r ok => ?_, fun _ _ _ bytes value r ok => ?_, fun seq tail at_ none_ => ?_⟩
    · rw [h.none_ i x mem bytes value] at ok
      cases ok
    · rw [h.none_ i x mem bytes value] at ok
      cases ok
    · obtain ⟨y, inside, same, bytes, value⟩ := h.dropped i x mem none_
      refine ⟨y, inside, same, bytes, value, fun r ok => ?_⟩
      rw [h.none_ i y inside bytes value] at ok
      cases ok
  sent := by
    intro t mem
    rw [h.sent] at mem
    cases mem
  known := by
    rintro i r ⟨ok, x, mem, value⟩
    rw [h.none_ i x mem _ value] at ok
    cases ok
  chain := by
    rw [h.signed]
    trivial
  stored := by
    intro s mem
    rw [h.signed] at mem
    cases mem
  plans := by
    intro i plan is
    rw [h.idle i] at is
    cases is

theorem Settled.mono {plan : Settlement} (h : Settled scheme key signed plan) (more : List Signing) :
    Settled scheme key (more ++ signed) plan := by
  have later : ∀ {r : Roster}, (∃ s ∈ signed, s.roster = r) → ∃ s ∈ more ++ signed, s.roster = r :=
    fun ⟨s, mem, same⟩ => ⟨s, List.mem_append_right _ mem, same⟩
  exact ⟨h.root, fun r is => ⟨(h.desired r is).1, later (h.desired r is).2⟩, fun r ok => later (h.input r ok),
    h.newer⟩

omit [DecidableEq ι] in
theorem Sound.knows (h : Sound scheme key w) (i : ι) : Knows scheme key w.signed (w.machine i) :=
  ⟨h.kept i, fun x mem y mem' => h.apart i i x mem y mem', h.known i⟩

variable {d : Done} {nowMs : UInt64} {offered : List UInt8} {r : Roster} {dialed : Bool} {e : Event ι}

/-- One machine's operation keeps the network sound. -/
theorem Sound.after (h : Sound scheme key w) {i : ι} (advance : Advance scheme key w.signed (w.machine i) d)
    (apart : (w.after i (some d)).Apart) : Sound scheme key (w.after i (some d)) := by
  have machine : ∀ j, ((w.after i (some d)).machine j) = if j = i then d.machine else w.machine j := by
    intro j
    simp only [World.after, Function.update_apply]
  have more : ∀ j, (w.machine j).table ⊆ ((w.after i (some d)).machine j).table := by
    intro j
    rw [machine j]
    split
    · next same => exact same ▸ advance.more
    · exact List.Subset.refl _
  constructor
  · exact apart
  · intro j
    rw [machine j]
    split
    · exact advance.kept
    · exact h.kept j
  · intro t mem
    obtain ⟨kept, j, sub⟩ := h.sent t mem
    exact ⟨kept, j, List.Subset.trans sub (more j)⟩
  · intro j r received
    rw [machine j] at received
    split at received
    · exact advance.known r received
    · obtain ⟨s, mem, same⟩ := h.known j r received
      exact ⟨s, List.mem_append_right _ mem, same⟩
  · exact advance.chain
  · intro s mem x revokes
    obtain new | old := List.mem_append.mp mem
    · refine ⟨i, ?_⟩
      rw [machine i, if_pos rfl]
      exact advance.stored s new x revokes
    · obtain ⟨j, received⟩ := h.stored s old x revokes
      exact ⟨j, received.mono (more j)⟩
  · intro j plan is
    rw [machine j] at is
    split at is
    · exact advance.plans plan is
    · exact (h.plans j plan is).mono d.signed

/-! ### What one operation does -/

/-- What a machine goes by: what it knows of what was signed, and a settlement that is in order. -/
structure Ready (scheme : Scheme) (key : scheme.SecretKey) (signed : List Signing) (m : Machine) : Prop where
  knows : Knows scheme key signed m
  chain : Chain scheme key signed
  plans : ∀ plan, m.settlement = some plan → Settled scheme key signed plan

omit [DecidableEq ι] in
theorem Sound.ready (h : Sound scheme key w) (i : ι) : Ready scheme key w.signed (w.machine i) :=
  ⟨h.knows i, h.chain, h.plans i⟩

section

variable (h : Ready scheme key signed m)
include h

/-- Nothing is signed and the table stays. -/
theorem Ready.still {m' : Machine} (same : m'.table = m.table)
    (plans : ∀ plan, m'.settlement = some plan → Settled scheme key signed plan) :
    Advance scheme key signed m ⟨m', []⟩ where
  kept := same.symm ▸ h.knows.kept
  more := same.symm ▸ List.Subset.refl _
  known := same.symm ▸ h.knows.known
  chain := h.chain
  stored := nofun
  plans := plans

/-- The table becomes another that keeps what it has received. -/
theorem Ready.changes {t : Table} (kept : Kept scheme key t) (more : m.table ⊆ t)
    (known : ∀ r, Received scheme key t r → Received scheme key m.table r ∨ ∃ s ∈ signed, s.roster = r) :
    Advance scheme key signed m ⟨{ m with table := t }, []⟩ where
  kept := kept
  more := more
  known := fun r received => (known r received).elim (h.knows.known r) id
  chain := h.chain
  stored := nofun
  plans := h.plans

theorem Ready.signs {s : Signing} (signing : SignedOver scheme key signed s) :
    Advance scheme key signed m (m.signed s) where
  kept := h.knows.kept.storeRoster m.peer signing.ok
  more := subset_storeRoster m.table m.peer s.roster
  known := by
    intro r received
    obtain old | rfl := received_storeRoster signing.ok received
    · obtain ⟨s', mem, same⟩ := h.knows.known r old
      exact ⟨s', .tail _ mem, same⟩
    · exact ⟨s, .head _, rfl⟩
  chain := ⟨signing, h.chain⟩
  stored := by
    intro s' mem _ _
    cases List.mem_singleton.mp mem
    exact (stored_storeRoster m.table m.peer signing.ok).received
  plans := fun plan is => (h.plans plan is).mono [s]

/-- The next roster, signed and stored. -/
theorem Ready.signNext {c : Change}
    (is : (m.signNext scheme key nowMs c).map m.signed = some d)
    (numbered : ∀ s ∈ d.signed, s.base.seq.toNat + s.changes.length < 2 ^ 64) : Advance scheme key signed m d := by
  obtain ⟨s, signs, rfl⟩ := Option.map_eq_some_iff.mp is
  exact h.signs (signNext_over h.knows signs (numbered s (List.mem_singleton_self s))).1

theorem Ready.certifySelf (is : m.certifySelf scheme key nowMs = some d)
    (numbered : ∀ s ∈ d.signed, s.base.seq.toNat + s.changes.length < 2 ^ 64) : Advance scheme key signed m d := by
  unfold Machine.certifySelf at is
  split at is
  · split at is
    · cases is
      exact h.still rfl h.plans
    · exact h.signNext is numbered
  · next none_ =>
    obtain ⟨r, ok, rfl⟩ := Option.map_eq_some_iff.mp is
    have bytes_ := (verified_bytes ok).2
    have unseen : ∀ r', ¬Signing.Saw scheme key ⟨r, [], r, m.table, []⟩ r' :=
      fun r' saw => h.knows.none_newest none_ r' (saw_of_unoffered rfl saw)
    refine h.signs ⟨?_, fun r' saw => absurd saw (unseen r'), .inr ⟨verified_genesis ok, unseen⟩, le_rfl, ?_,
      fun _ mem _ => mem, fun _ mem => .inl mem⟩
    · change verified scheme key r.bytes = some r
      rw [bytes_]
      exact ok
    · rintro x ⟨_, mem⟩
      cases mem

theorem Ready.approveHere {row : PendingRow}
    (is : m.approveHere scheme key row nowMs = some d)
    (numbered : ∀ s ∈ d.signed, s.base.seq.toNat + s.changes.length < 2 ^ 64) : Advance scheme key signed m d := by
  unfold Machine.approveHere at is
  split at is
  · cases is
  · split at is
    · exact h.signNext is numbered
    · exact h.signNext is numbered

theorem Ready.revokeHere {id : Id} (is : m.revokeHere scheme key id nowMs = some d)
    (numbered : ∀ s ∈ d.signed, s.base.seq.toNat + s.changes.length < 2 ^ 64) : Advance scheme key signed m d := by
  unfold Machine.revokeHere at is
  split at is
  · cases is
  · split at is
    · cases is
    · exact h.signNext is numbered

theorem Ready.trustTick (is : m.trustTick scheme key nowMs = some d)
    (numbered : ∀ s ∈ d.signed, s.base.seq.toNat + s.changes.length < 2 ^ 64) : Advance scheme key signed m d := by
  unfold Machine.trustTick at is
  split at is
  · cases is
  · split at is
    · split at is
      · cases is
        exact h.still rfl h.plans
      · cases is
        exact h.still rfl h.plans
    · split at is
      · exact h.signNext is numbered
      · cases is
        exact h.still rfl h.plans

theorem Ready.takeVouch {remote : Id} {bytes : List UInt8} {gone : Bool}
    (anchor : m.anchor = some (scheme.public key)) (genuine : Genuine scheme key signed bytes)
    (is : m.takeVouch scheme remote bytes gone nowMs = some d) : Advance scheme key signed m d := by
  unfold Machine.takeVouch at is
  obtain ⟨root, at_, is⟩ := Option.bind_eq_some_iff.mp is
  cases at_.symm.trans anchor
  obtain ⟨r, ok, is⟩ := Option.bind_eq_some_iff.mp is
  have ok : verified scheme key bytes = some r := ok
  have bytes_ := (verified_bytes ok).2
  have ok' : verified scheme key r.bytes = some r := bytes_.symm ▸ ok
  split at is
  · cases is
  · split at is
    · cases is
    · cases is
      refine h.changes (h.knows.kept.storeRoster m.peer ok') (subset_storeRoster m.table m.peer r) ?_
      intro r' received
      obtain old | rfl := received_storeRoster ok' received
      · exact .inl old
      · exact .inr (genuine _ ok)

theorem Ready.collectPairs {pairings : List Id}
    (is : m.collectPairs pairings = some d) : Advance scheme key signed m d := by
  cases is
  exact h.changes (h.knows.kept.collect m.peer m.id pairings) Register.subset_deletes
    fun r received => .inl (received_deletes received)

theorem Ready.merge {t : Table} (kept : Kept scheme key t)
    (known : ∀ r, Received scheme key t r → ∃ s ∈ signed, s.roster = r) :
    Advance scheme key signed m ⟨{ m with table := m.table.merge t }, []⟩ :=
  h.changes (h.knows.kept.merge kept) (fun _ mem => Register.mem_merge.mpr (.inl mem))
    fun r received => (received_merge received).imp id (known r)

end

/-! ### Pairings -/

theorem settlementRoster_verified (ok : verified scheme key offered = some r) :
    settlementRoster scheme offered = some (some r) := by
  have some_ : offered ≠ [] := by
    rintro rfl
    rw [verified_nil] at ok
    cases ok
  have read := verified_iff.mp ok
  unfold settlementRoster
  rw [if_neg some_, (verifyRoster_root read).2.2]
  change ((verifyRoster scheme offered (scheme.public key)).toOption.bind fun r => some (some r)) = _
  rw [read]
  rfl

theorem settlementRoster_root (is : settlementRoster scheme offered = some (some r))
    (root : r.root = scheme.public key) : verified scheme key offered = some r := by
  unfold settlementRoster at is
  split at is
  · cases is
  · obtain ⟨claimed, _, is⟩ := Option.bind_eq_some_iff.mp is
    obtain ⟨r', ok, is⟩ := Option.bind_eq_some_iff.mp is
    cases is
    cases read : verifyRoster scheme offered claimed with
    | error e =>
        rw [read] at ok
        cases ok
    | ok r' =>
        rw [read] at ok
        cases ok
        rw [← (verifyRoster_root read).1, root] at read
        exact verified_iff.mpr read

/-- What a settlement that goes on under the root decides. -/
structure Planned (scheme : Scheme) (key : scheme.SecretKey) (signed : List Signing) (m : Machine)
    (offered : List UInt8) (desired : Option Roster) : Prop where
  signs : ∀ r, desired = some r → verified scheme key r.bytes = some r ∧ ∃ s ∈ signed, s.roster = r
  newer : ∀ r, verified scheme key offered = some r → ∃ d, desired = some d ∧ r.rank ≤ d.rank
  above : m.anchor = some (scheme.public key) → ∀ r, Received scheme key m.table r →
    ∃ d, desired = some d ∧ r.rank ≤ d.rank

theorem laterOf_spec (a b : Option Roster) :
    (∀ r, laterOf a b = some r → a = some r ∨ b = some r) ∧
      (∀ r, a = some r → ∃ d, laterOf a b = some d ∧ r.rank ≤ d.rank) ∧
      ∀ r, b = some r → ∃ d, laterOf a b = some d ∧ r.rank ≤ d.rank := by
  cases a with
  | none => exact ⟨fun r is => .inr is, nofun, fun r is => ⟨r, is, le_rfl⟩⟩
  | some a =>
      cases b with
      | none => exact ⟨fun r is => .inl is, fun r is => ⟨r, is, le_rfl⟩, nofun⟩
      | some b =>
          unfold laterOf
          dsimp only
          by_cases less : b.rank < a.rank
          · rw [if_pos less]
            refine ⟨fun r is => .inl is, ?_, ?_⟩
            · rintro r ⟨⟩
              exact ⟨a, rfl, le_rfl⟩
            · rintro r ⟨⟩
              exact ⟨a, rfl, less.le⟩
          · rw [if_neg less]
            refine ⟨fun r is => .inr is, ?_, ?_⟩
            · rintro r ⟨⟩
              exact ⟨b, rfl, not_lt.mp less⟩
            · rintro r ⟨⟩
              exact ⟨b, rfl, le_rfl⟩

/-- A side that gives up its root had another. -/
theorem settle_adopt {mine theirs : Option Roster} {me them : Id} (is : settle mine me theirs them dialed = .adopt)
    {a b : Roster} (mine_ : mine = some a) (theirs_ : theirs = some b) : a.root ≠ b.root := by
  subst mine_ theirs_
  intro same
  unfold settle at is
  dsimp only at is
  rw [if_pos same] at is
  cases is

/-- The holder's admissions over what was planned. -/
theorem Planned.admits {desired : Option Roster} (planned : Planned scheme key signed m offered desired)
    (anchor : m.anchor = some (scheme.public key)) {base : Roster} {changes : List Change} (first : m.orGenesis scheme key nowMs desired = some base)
    (admitted : Admitted scheme key base changes r) (fits : base.seq.toNat + changes.length < 2 ^ 64) :
    SignedOver scheme key signed ⟨base, changes, r, m.table, offered⟩ := by
  have base_ : verified scheme key base.bytes = some base := by
    cases desired with
    | some d =>
        cases first
        exact (planned.signs base rfl).1
    | none =>
        have bytes_ := (verified_bytes first).2
        exact bytes_.symm ▸ first
  -- Whatever its signer had, the plan is at least as new.
  have above : ∀ r', Signing.Saw scheme key ⟨base, changes, r, m.table, offered⟩ r' →
      ∃ d, desired = some d ∧ r'.rank ≤ d.rank := by
    rintro r' (received | ⟨ok, same⟩)
    · exact planned.above anchor r' received
    · have same : offered = r'.bytes := same
      exact planned.newer r' (same ▸ ok)
  have never : ∀ {x nowMs}, Change.revoke nowMs x ∉ changes := by
    intro x now' mem
    obtain ⟨_, _, is⟩ := admitted.admits _ mem
    cases is
  refine ⟨admitted.ok base_, ?_, ?_, (admitted.rises fits).1, ?_, ?_, fun x mem => .inl (admitted.only x mem)⟩
  · intro r' saw
    obtain ⟨d, is, le⟩ := above r' saw
    rw [is] at first
    cases first
    exact le
  · cases desired with
    | some d =>
        cases first
        exact .inl (planned.signs base rfl).2
    | none =>
        refine .inr ⟨verified_genesis first, fun r' saw => ?_⟩
        obtain ⟨d, is, _⟩ := above r' saw
        cases is
  · rintro x ⟨now', mem⟩
    exact absurd mem never
  · intro x mem unadmitted
    exact admitted.keeps x mem fun now' m' mem' same => unadmitted ⟨now', m', mem', same⟩

section

variable (h : Ready scheme key signed m)
include h

theorem Ready.plan {remote : Id} {desired : Option Roster} (genuine : Genuine scheme key signed offered)
    (is : m.plan scheme remote dialed offered = some (some (scheme.public key), desired)) :
    Planned scheme key signed m offered desired := by
  unfold Machine.plan at is
  obtain ⟨theirs, settles, is⟩ := Option.bind_eq_some_iff.mp is
  have signed_ : ∀ r, verified scheme key offered = some r →
      verified scheme key r.bytes = some r ∧ ∃ s ∈ signed, s.roster = r :=
    fun r ok => ⟨(verified_bytes ok).2.symm ▸ ok, genuine r ok⟩
  have theirs_ : ∀ r, verified scheme key offered = some r → theirs = some r :=
    fun r ok => Option.some.inj (settles.symm.trans (settlementRoster_verified ok))
  have offered_ : ∀ r, theirs = some r → r.root = scheme.public key → verified scheme key offered = some r := by
    rintro r rfl root
    exact settlementRoster_root settles root
  have mine_ : m.anchor = some (scheme.public key) →
      m.anchor.bind (m.table.newestIn scheme ·) = m.table.newestIn scheme (scheme.public key) := by
    intro anchor
    rw [anchor, Option.bind_some]
  have newest_ : ∀ r, Received scheme key m.table r →
      ∃ first, m.table.newestIn scheme (scheme.public key) = some first ∧ r.rank ≤ first.rank := by
    intro r received
    obtain ⟨first, inside, above⟩ := exists_newest received
    exact ⟨first, newest_of_received h.knows.kept h.knows.apart inside above, above r received⟩
  dsimp only at is
  split at is
  · cases is
  · next adopts =>
    simp only [Option.some.injEq, Prod.mk.injEq] at is
    obtain ⟨root, rfl⟩ := is
    obtain ⟨t, theirs_t, root⟩ := Option.map_eq_some_iff.mp root
    refine ⟨?_, fun r ok => ⟨r, theirs_ r ok, le_rfl⟩, fun anchor r received => ?_⟩
    · intro r is
      cases theirs_t.symm.trans is
      exact signed_ t (offered_ t theirs_t root)
    · obtain ⟨first, found, _⟩ := newest_ r received
      rw [mine_ anchor, found] at adopts
      exact absurd ((newest_root found).trans root.symm) (settle_adopt adopts rfl theirs_t)
  · next keeps =>
    simp only [Option.some.injEq, Prod.mk.injEq] at is
    obtain ⟨anchor, rfl⟩ := is
    rw [mine_ anchor]
    obtain ⟨one, left, right⟩ := laterOf_spec (m.table.newestIn scheme (scheme.public key))
      (theirs.filter fun r => some r.root = m.anchor)
    refine ⟨fun r is => ?_, fun r ok => right r ?_, fun _ r received => ?_⟩
    · obtain mine | offers := one r is
      · obtain ⟨ok, known, _⟩ := h.knows.newest mine
        exact ⟨ok, known⟩
      · obtain ⟨is, root⟩ := Option.filter_eq_some_iff.mp offers
        rw [anchor, decide_eq_true_eq, Option.some.injEq] at root
        exact signed_ r (offered_ r is root)
    · rw [theirs_ r ok, anchor]
      refine Option.filter_eq_some_iff.mpr ⟨rfl, ?_⟩
      rw [decide_eq_true_eq, (verifyRoster_root (verified_iff.mp ok)).1]
    · obtain ⟨first, found, le⟩ := newest_ r received
      obtain ⟨d, is, le'⟩ := left first found
      exact ⟨d, is, le.trans le'⟩

/-- A settlement that is ready. -/
theorem Ready.preparePair {pairing remote : Id} {presented : Id → Option (List UInt8)}
    (genuine : Genuine scheme key signed offered)
    (root : ∀ anchor desired, m.plan scheme remote dialed offered = some (anchor, desired) →
      anchor = some (scheme.public key))
    (is : m.preparePair scheme key pairing remote dialed offered presented nowMs = some d)
    (numbered : ∀ s ∈ d.signed, s.base.seq.toNat + s.changes.length < 2 ^ 64) : Advance scheme key signed m d := by
  unfold Machine.preparePair at is
  split at is
  · cases is
  · obtain ⟨⟨anchor, desired⟩, plans, is⟩ := Option.bind_eq_some_iff.mp is
    cases root anchor desired plans
    have planned := h.plan genuine plans
    dsimp only at is
    split at is
    · next holds =>
      obtain ⟨base, first, is⟩ := Option.bind_eq_some_iff.mp is
      obtain ⟨⟨changes, r⟩, admits, is⟩ := Option.bind_eq_some_iff.mp is
      have admitted := admitParties_admitted admits
      have anchor : m.anchor = some (scheme.public key) := by
        unfold Machine.holdsRoot at holds
        simp only [Bool.and_eq_true, decide_eq_true_eq] at holds
        exact holds.1.2
      dsimp only at is
      split at is
      · next unsigned =>
        cases is
        obtain ⟨none_, some_⟩ := unsigned
        obtain ⟨planned_, is⟩ := Option.isSome_iff_exists.mp some_
        subst is
        cases first
        cases admitted.same none_
        refine h.still rfl fun plan is => ?_
        cases is
        exact ⟨rfl, planned.signs, genuine, planned.newer⟩
      · cases is
        have fits := numbered _ (List.mem_singleton_self _)
        have signing := planned.admits anchor first admitted fits
        refine ⟨h.knows.kept, List.Subset.refl _, fun r' received => ?_, ⟨signing, h.chain⟩, ?_, fun plan is => ?_⟩
        · obtain ⟨s, mem, same⟩ := h.knows.known r' received
          exact ⟨s, .tail _ mem, same⟩
        · rintro s mem x ⟨now', revokes⟩
          cases List.mem_singleton.mp mem
          obtain ⟨_, _, is⟩ := admitted.admits _ revokes
          cases is
        · cases is
          refine ⟨rfl, ?_, fun r' ok => ?_, fun r' ok => ?_⟩
          · rintro _ ⟨⟩
            exact ⟨signing.ok, _, .head _, rfl⟩
          · obtain ⟨s, mem, same⟩ := genuine r' ok
            exact ⟨s, .tail _ mem, same⟩
          · obtain ⟨d, is, le⟩ := planned.newer r' ok
            rw [is] at first
            cases first
            exact ⟨r, rfl, le.trans signing.rises⟩
    · split at is
      · cases is
      · cases is
        refine h.still rfl fun plan is => ?_
        cases is
        exact ⟨rfl, planned.signs, genuine, planned.newer⟩

/-- The table with the desired roster: a machine that comes to the root has no other one of it. -/
theorem Ready.desiredTable {plan : Settlement} (settled : Settled scheme key signed plan)
    (only : plan.beforeAnchor ≠ plan.desiredAnchor → ∀ r, plan.desired = some r → ∀ r',
      m.table.newestIn scheme (scheme.public key) = some r' → r'.bytes = r.bytes) :
    Kept scheme key (m.desiredTable plan) ∧ m.table ⊆ m.desiredTable plan ∧
      (∀ r, plan.desired = some r → Stored scheme key (m.desiredTable plan) r) ∧
      ∀ r, Received scheme key (m.desiredTable plan) r →
        Received scheme key m.table r ∨ plan.desired = some r := by
  unfold Machine.desiredTable
  cases desired : plan.desired with
  | none => exact ⟨h.knows.kept, List.Subset.refl _, nofun, fun r received => .inl received⟩
  | some r =>
      have ok := (settled.desired r desired).1
      dsimp only
      split
      · refine ⟨h.knows.kept.storeRoster m.peer ok, subset_storeRoster m.table m.peer r, ?_, ?_⟩
        · rintro _ ⟨⟩
          exact stored_storeRoster m.table m.peer ok
        · intro r' received
          exact (received_storeRoster ok received).imp id fun same => congrArg some same.symm
      · next other =>
        refine ⟨h.knows.kept.adopt h.knows.apart m.peer ok (only other r desired),
          List.Subset.trans Register.subset_deletes (subset_storeRoster _ m.peer r), ?_, ?_⟩
        · rintro _ ⟨⟩
          exact stored_storeRoster _ m.peer ok
        · intro r' received
          exact (received_storeRoster ok received).imp received_deletes fun same => congrArg some same.symm

/-- What a settlement makes of a table. -/
theorem Ready.settleTable {plan : Settlement} {m' : Machine} (settled : Settled scheme key signed plan)
    (is : m.settleTable scheme plan = some m') : Advance scheme key signed m ⟨m', []⟩ := by
  unfold Machine.settleTable at is
  dsimp only at is
  split at is
  · cases is
  · split at is
    · cases is
    · split at is
      · cases is
      · next unchanged =>
        cases is
        obtain ⟨kept, more, stored, received⟩ := h.desiredTable settled (by
          intro other r desired r' newest
          rw [settled.root, Option.bind_some, newest, desired] at unchanged
          by_contra differ
          exact unchanged ⟨by simp, by simpa using differ, settled.root ▸ other⟩)
        have archived : Kept scheme key (m.archivedTable plan (m.desiredTable plan)) ∧
            m.desiredTable plan ⊆ m.archivedTable plan (m.desiredTable plan) ∧
            ∀ r, Received scheme key (m.archivedTable plan (m.desiredTable plan)) r →
              Received scheme key (m.desiredTable plan) r ∨ verified scheme key plan.input = some r := by
          unfold Machine.archivedTable
          split
          · exact ⟨kept, List.Subset.refl _, fun r received => .inl received⟩
          · refine ⟨kept.archive m.peer fun r ok => ?_, Register.subset_put, fun r received => received_put received⟩
            obtain ⟨d, desired, le⟩ := settled.newer r ok
            exact ⟨d, stored d desired, le⟩
        refine ⟨archived.1, List.Subset.trans more archived.2.1, fun r received' => ?_, h.chain, nofun, ?_⟩
        · obtain inside | input := archived.2.2 r received'
          · obtain old | desired := received r inside
            · exact h.knows.known r old
            · exact (settled.desired r desired).2
          · exact settled.input r input
        · rintro _ ⟨⟩
          exact ⟨settled.root, settled.desired, settled.input, settled.newer⟩

theorem Ready.applyPair (is : m.applyPair scheme = some d) : Advance scheme key signed m d := by
  unfold Machine.applyPair at is
  obtain ⟨plan, under, is⟩ := Option.bind_eq_some_iff.mp is
  obtain ⟨m', settles, is⟩ := Option.bind_eq_some_iff.mp is
  have settled := h.plans plan under
  have advance : Advance scheme key signed m ⟨m', []⟩ := by
    split at settles
    · cases settles
      exact h.still rfl h.plans
    · exact h.settleTable settled settles
  split at is
  · cases is
    exact ⟨advance.kept, advance.more, advance.known, advance.chain, advance.stored, nofun⟩
  · split at is
    · cases is
      exact advance
    · cases is
      exact ⟨advance.kept, advance.more, advance.known, advance.chain, advance.stored, nofun⟩

end

/-! ### Every run -/

/-- What is done at one machine. -/
theorem Sound.done (h : Sound scheme key w) (permitted : Permitted scheme key w e) {i : ι}
    (is : e.done scheme key w = some (i, some d)) : Advance scheme key w.signed (w.machine i) d := by
  have ready := h.ready i
  have numbered : ∀ s ∈ d.signed, s.base.seq.toNat + s.changes.length < 2 ^ 64 := by
    have numbered := permitted.numbered
    unfold signedBy at numbered
    rw [is] at numbered
    exact numbered
  have offered := permitted.offered
  cases e with
  | certifySelf j nowMs =>
      obtain ⟨rfl, result⟩ := Prod.mk.inj (Option.some.inj is)
      exact ready.certifySelf result numbered
  | approveHere j row nowMs =>
      obtain ⟨rfl, result⟩ := Prod.mk.inj (Option.some.inj is)
      exact ready.approveHere result numbered
  | revokeHere j id nowMs =>
      obtain ⟨rfl, result⟩ := Prod.mk.inj (Option.some.inj is)
      exact ready.revokeHere result numbered
  | trustTick j nowMs =>
      obtain ⟨rfl, result⟩ := Prod.mk.inj (Option.some.inj is)
      exact ready.trustTick result numbered
  | takeVouch j remote bytes gone nowMs =>
      obtain ⟨rfl, result⟩ := Prod.mk.inj (Option.some.inj is)
      exact ready.takeVouch offered.1 offered.2 result
  | preparePair j pairing remote dialed bytes presented nowMs =>
      obtain ⟨rfl, result⟩ := Prod.mk.inj (Option.some.inj is)
      exact ready.preparePair offered.1 offered.2 result numbered
  | applyPair j =>
      obtain ⟨rfl, result⟩ := Prod.mk.inj (Option.some.inj is)
      exact ready.applyPair result
  | collectPairs j pairings =>
      obtain ⟨rfl, result⟩ := Prod.mk.inj (Option.some.inj is)
      exact ready.collectPairs result
  | send j => cases is
  | merge j n =>
      obtain ⟨rfl, result⟩ := Prod.mk.inj (Option.some.inj is)
      obtain ⟨t, found, rfl⟩ := Option.map_eq_some_iff.mp result
      obtain ⟨kept, k, sub⟩ := h.sent t (List.mem_reverse.mp (List.mem_of_getElem? found))
      exact ready.merge kept fun r received => h.known k r (received.mono sub)

/-- An event of a machine is its operation. -/
theorem step_done {i : ι} {d : Option Done} (done : e.done scheme key w = some (i, d)) :
    step scheme key w e = w.after i d := by
  cases e with
  | send i => cases done
  | _ =>
      unfold step
      dsimp only
      rw [done]

/-- The only other event is a table that is sent. -/
theorem step_sent (none_ : e.done scheme key w = none) :
    ∃ i, step scheme key w e = { w with sent := (w.machine i).table :: w.sent } := by
  cases e with
  | send i => exact ⟨i, rfl⟩
  | _ => cases none_

theorem Sound.preserved (h : Sound scheme key w) (permitted : Permitted scheme key w e) :
    Sound scheme key (step scheme key w e) := by
  have apart := permitted.apart
  cases done : e.done scheme key w with
  | none =>
      obtain ⟨i, is⟩ := step_sent done
      rw [is]
      refine ⟨h.apart, h.kept, ?_, h.known, h.chain, h.stored, h.plans⟩
      intro t mem
      obtain rfl | mem := List.mem_cons.mp mem
      · exact ⟨h.kept i, i, List.Subset.refl _⟩
      · exact h.sent t mem
  | some result =>
      obtain ⟨i, d⟩ := result
      rw [step_done done] at apart ⊢
      cases d with
      | none => exact h
      | some d => exact h.after (h.done permitted done) apart

/-- Tables only grow. -/
theorem Sound.grows (h : Sound scheme key w) (permitted : Permitted scheme key w e) (j : ι) :
    (w.machine j).table ⊆ ((step scheme key w e).machine j).table := by
  cases done : e.done scheme key w with
  | none =>
      obtain ⟨i, is⟩ := step_sent done
      rw [is]
      exact List.Subset.refl _
  | some result =>
      obtain ⟨i, d⟩ := result
      rw [step_done done]
      cases d with
      | none => exact List.Subset.refl _
      | some d =>
          by_cases same : j = i
          · subst same
            have advance := h.done permitted done
            simpa only [World.after, Function.update_self] using advance.more
          · simpa only [World.after, Function.update_of_ne same] using List.Subset.refl _

/-- What was signed stays signed. -/
theorem signed_step (w : World ι) (e : Event ι) : w.signed ⊆ (step scheme key w e).signed := by
  cases done : e.done scheme key w with
  | none =>
      obtain ⟨i, is⟩ := step_sent done
      rw [is]
      exact List.Subset.refl _
  | some result =>
      obtain ⟨i, d⟩ := result
      rw [step_done done]
      cases d with
      | none => exact List.Subset.refl _
      | some d => exact List.subset_append_right _ _

theorem Sound.timely_run {w₀ : World ι} (start : Start scheme key w₀)
    (run : Runs (step scheme key) (Orderly scheme key) w₀ w) :
    Sound scheme key w ∧ Timely scheme key w.signed := by
  refine run.invariant (I := fun w => Sound scheme key w ∧ Timely scheme key w.signed) ?_ ⟨start.sound, ?_⟩
  · exact fun permitted inv => ⟨inv.1.preserved permitted.1, permitted.2⟩
  · rw [start.signed]
    intro ρ mem
    cases mem

/-- Every machine's table holds what the others' do. -/
def World.Merged (w : World ι) : Prop := ∀ i j, (w.machine i).table ⊆ (w.machine j).table

theorem standing_revoked {r : Option Roster} {root id : Id} {presented : Option (List UInt8)} :
    standing scheme r (some root) id presented nowMs = .revoked ↔ ∃ r₀, r = some r₀ ∧ id ∈ r₀.revoked := by
  cases r with
  | none => simp [standing]
  | some r =>
      unfold standing
      dsimp only
      by_cases listed : r.isRevoked id = true
      · rw [if_pos listed]
        exact ⟨fun _ => ⟨r, rfl, List.contains_iff_mem.mp listed⟩, fun _ => rfl⟩
      · rw [if_neg listed]
        constructor
        · intro is
          split at is
          · cases is
          · split at is <;> cases is
        · rintro ⟨_, ⟨⟩, mem⟩
          exact absurd (List.contains_iff_mem.mpr mem) listed

theorem standingIn_revoked {id : Id} {presented : Option (List UInt8)} {nowMs : UInt64}
    (anchor : m.anchor = some (scheme.public key)) :
    m.standingIn scheme id presented nowMs = .revoked ↔
      ∃ r, m.table.newestIn scheme (scheme.public key) = some r ∧ id ∈ r.revoked := by
  unfold Machine.standingIn
  rw [anchor, Option.bind_some]
  exact standing_revoked

/-- In an orderly run a revocation lasts: where nobody who had received it admits the machine again, it is in force
on every machine once the tables are merged; and no event takes a machine that is revoked here for trusted but by a
roster whose signer had received the revocation that the roster in force here listed it for. -/
theorem revocation_lasts {w₀ w : World ι} (start : Start scheme key w₀)
    (run : Runs (step scheme key) (Orderly scheme key) w₀ w) :
    (∀ ρ ∈ w.signed, ∀ x, ρ.Revokes x → (∀ s ∈ w.signed, s.Admits x → ¬s.Saw scheme key ρ.roster) → w.Merged →
      ∀ i, (w.machine i).anchor = some (scheme.public key) → ∀ presented nowMs,
        (w.machine i).standingIn scheme x presented nowMs = .revoked) ∧
    ∀ e, Orderly scheme key w e → ∀ i, (w.machine i).anchor = some (scheme.public key) →
      ((step scheme key w e).machine i).anchor = some (scheme.public key) →
      ∀ x presented presented' nowMs nowMs', (w.machine i).standingIn scheme x presented nowMs = .revoked →
        ((step scheme key w e).machine i).standingIn scheme x presented' nowMs' = .trusted →
        ∃ s ∈ (step scheme key w e).signed,
          ((step scheme key w e).machine i).table.newestIn scheme (scheme.public key) = some s.roster ∧
          ∃ r, (w.machine i).table.newestIn scheme (scheme.public key) = some r ∧
            ∃ ρ, ρ.Revokes x ∧ ListedFor w.signed x ρ r ∧ s.Saw scheme key ρ.roster := by
  obtain ⟨sound, timely⟩ := Sound.timely_run start run
  constructor
  · intro ρ mem x revokes unadmitted merged i anchor presented nowMs
    obtain ⟨j, received⟩ := sound.stored ρ mem x revokes
    have here := received.mono (merged j i)
    obtain ⟨first, inside, above⟩ := exists_newest here
    have knows := sound.knows i
    refine (standingIn_revoked anchor).mpr ⟨first, newest_of_received knows.kept knows.apart inside above, ?_⟩
    obtain ⟨s, listed, rfl⟩ := sound.known i first inside
    exact revoked_above sound.chain timely mem revokes unadmitted s listed (above _ here)
  · intro e orderly i anchor anchor' x presented presented' nowMs nowMs' revoked trusted
    have sound' := sound.preserved orderly.1
    have knows := sound.knows i
    have knows' := sound'.knows i
    obtain ⟨r, found, mem⟩ := (standingIn_revoked anchor).mp revoked
    have received : Received scheme key ((step scheme key w e).machine i).table r :=
      ((newest_received knows.kept knows.apart).mp found).1.mono (sound.grows orderly.1 i)
    obtain ⟨first, inside, above⟩ := exists_newest received
    have newest := newest_of_received knows'.kept knows'.apart inside above
    have unlisted : x ∉ first.revoked := by
      intro listed
      have still := (@standingIn_revoked scheme key _ x presented' nowMs' anchor').mpr ⟨first, newest, listed⟩
      rw [trusted] at still
      cases still
    obtain ⟨s, signed_, rfl⟩ := sound'.known i first inside
    obtain ⟨s₀, signed₀, rfl⟩ := sound.known i r ((newest_received knows.kept knows.apart).mp found).1
    obtain ⟨ρ, there, revokes, for_, le⟩ := sound.chain.revocation signed₀ mem
    have more : w.signed ⊆ (step scheme key w e).signed := signed_step w e
    refine ⟨s, signed_, newest, _, found, ρ, revokes, for_, orderly.2 ρ (more there) s signed_ x revokes unlisted ?_⟩
    refine lt_of_le_of_ne (le.trans (above _ received)) fun same => unlisted ?_
    have rank : s₀.roster.rank = s.roster.rank := le_antisymm (above _ received) (same ▸ le)
    rw [← sound'.chain.rank (more signed₀) signed_ rank]
    exact mem

end World

/-! ### A refresh by a holder that has not received a revocation -/

section Check

variable {scheme : Scheme} {key : scheme.SecretKey}

/-- A decision of `Permitted` for two machines and the events that are offered nothing. -/
def check (scheme : Scheme) (key : scheme.SecretKey) (w : World (Fin 2)) (e : Event (Fin 2)) : Bool :=
  (match e with
    | .certifySelf .. | .takeVouch .. | .preparePair .. => false
    | _ => true) &&
  (signedBy scheme key w e).all (fun s => s.base.seq.toNat + s.changes.length < 2 ^ 64) &&
  let next := step scheme key w e
  let writes := (next.machine 0).table ++ (next.machine 1).table
  writes.all fun x => writes.all fun y =>
    !(Table.isVersion x.key && y.key = x.key && x.value.isSome && y.value.isSome) || x.value = y.value

theorem permitted_of_check {w : World (Fin 2)} {e : Event (Fin 2)} (ok : check scheme key w e = true) :
    Permitted scheme key w e := by
  unfold check at ok
  rw [Bool.and_eq_true, Bool.and_eq_true] at ok
  obtain ⟨⟨plain, numbered⟩, apart⟩ := ok
  refine ⟨?_, fun s mem => of_decide_eq_true (List.all_eq_true.mp numbered s mem), ?_⟩
  · cases e with
    | certifySelf | takeVouch | preparePair => cases plain
    | _ => trivial
  · have all : ∀ i, ∀ x ∈ ((step scheme key w e).machine i).table,
        x ∈ ((step scheme key w e).machine 0).table ++ ((step scheme key w e).machine 1).table := by
      intro i x mem
      rw [List.mem_append]
      obtain rfl | rfl : i = 0 ∨ i = 1 := by omega
      · exact .inl mem
      · exact .inr mem
    intro i j x mem y mem' seq tail at_ same bytes bytes' value value'
    have both := List.all_eq_true.mp (List.all_eq_true.mp apart x (all i x mem)) y (all j y mem')
    simpa [at_, same, value, value', Table.isVersion] using both

theorem runs_of_check {w : World (Fin 2)} {es : List (Event (Fin 2))}
    (fits : Khor.Fits (step scheme key) (fun w e => check scheme key w e = true) w es) :
    Runs (step scheme key) (Permitted scheme key) w (es.foldl (step scheme key) w) :=
  fits.runs.mono permitted_of_check

end Check

/-- Signatures by a byte that is its own root: a sum over the bytes signed. -/
def sumScheme : Scheme where
  SecretKey := UInt8
  «public» key := Vector.replicate 32 key
  sign key signed := Vector.replicate 64 (signed.foldl (· + ·) key)
  verify root signed sig := sig == Vector.replicate 64 (signed.foldl (· + ·) root[0])

def sumKey : sumScheme.SecretKey := (7 : UInt8)

/-- The same signatures, summed as natural numbers and compared as lists. -/
def listScheme : Scheme where
  SecretKey := UInt8
  «public» key := Vector.replicate 32 key
  sign key signed := Vector.replicate 64 (UInt8.ofNat (signed.foldl (fun n b => n + b.toNat) key.toNat))
  verify root signed sig :=
    sig.toList == List.replicate 64 (UInt8.ofNat (signed.foldl (fun n b => n + b.toNat) root[0].toNat))

theorem sum_toNat (signed : List UInt8) : ∀ key : UInt8,
    signed.foldl (· + ·) key = UInt8.ofNat (signed.foldl (fun n b => n + b.toNat) key.toNat) := by
  have sums : ∀ (n : Nat), signed.foldl (· + ·) (UInt8.ofNat n) =
      UInt8.ofNat (signed.foldl (fun n b => n + b.toNat) n) := by
    induction signed with
    | nil => exact fun n => rfl
    | cons b signed ih =>
        intro n
        rw [List.foldl_cons, List.foldl_cons, ← ih, UInt8.ofNat_add, UInt8.ofNat_toNat]
  intro key
  rw [← sums, UInt8.ofNat_toNat]

theorem beq_replicate (sig : Vector UInt8 64) (x : UInt8) :
    (sig == Vector.replicate 64 x) = (sig.toList == List.replicate 64 x) := by
  rw [Bool.eq_iff_iff, beq_iff_eq, beq_iff_eq, ← Vector.toList_inj, Vector.toList_replicate]

/-- What holds with the one holds with the other. -/
theorem of_listScheme {P : (scheme : Scheme) → scheme.SecretKey → Prop} (list : P listScheme (7 : UInt8)) :
    P sumScheme sumKey := by
  have same : sumScheme = listScheme := by
    unfold sumScheme listScheme
    congr 1
    · funext key signed
      rw [sum_toNat]
    · funext root signed sig
      rw [sum_toNat]
      exact beq_replicate sig _
  have keyed : (⟨sumScheme, sumKey⟩ : (scheme : Scheme) × scheme.SecretKey) = ⟨listScheme, (7 : UInt8)⟩ :=
    Sigma.ext same HEq.rfl
  have all : ∀ keyed : (scheme : Scheme) × scheme.SecretKey, keyed = ⟨listScheme, (7 : UInt8)⟩ → P keyed.1 keyed.2 := by
    rintro _ rfl
    exact list
  exact all _ keyed

/-- Two machines that hold one root, and no roster yet. -/
def twoHolders : World (Fin 2) where
  machine i := ⟨idOf i, i, some (sumScheme.public sumKey), some (sumScheme.public sumKey), [], none⟩
  sent := []
  signed := []

theorem twoHolders_start : Start sumScheme sumKey twoHolders :=
  ⟨rfl, rfl, fun _ _ _ => nofun, fun _ => rfl, fun _ _ => nofun, fun _ _ => nofun⟩

/-- The first admits a third machine and the second hears of it; the first revokes it; a week later, without
having heard of that, the second signs the same list again; then they merge. -/
def refreshed : List (Event (Fin 2)) :=
  [.approveHere 0 ⟨idOf 2, false, none⟩ 1, .send 0, .merge 1 0, .revokeHere 0 (idOf 2) 2,
    .trustTick 1 691200000, .send 0, .send 1, .merge 1 1, .merge 0 2]

/-- Whether a signing revokes a machine. -/
def Signing.revokes (s : Signing) (x : Id) : Bool := s.changes.any fun | .revoke _ id => id = x | _ => false

/-- Whether a signing admits a machine. -/
def Signing.admits (s : Signing) (x : Id) : Bool := s.changes.any fun | .admitMember _ m => m.subject = x | _ => false

variable {x : Id}

theorem Signing.revokes_spec {s : Signing} (is : s.revokes x = true) : s.Revokes x := by
  obtain ⟨c, mem, is⟩ := List.any_eq_true.mp is
  cases c with
  | revoke nowMs id =>
      cases of_decide_eq_true is
      exact ⟨nowMs, mem⟩
  | admitMember | refresh => cases is

theorem Signing.admits_spec {s : Signing} (admits : s.Admits x) : s.admits x = true := by
  obtain ⟨nowMs, m, mem, same⟩ := admits
  exact List.any_eq_true.mpr ⟨_, mem, decide_eq_true same⟩

/-- What is to be seen of a run: the second roster signed revokes the machine, nobody who has it admits the
machine, and the tables are the same. -/
def undone (scheme : Scheme) (key : scheme.SecretKey) (w : World (Fin 2)) (x : Id) (nowMs : UInt64) : Bool :=
  match w.signed[1]? with
  | none => false
  | some ρ =>
      ρ.revokes x &&
      w.signed.all (fun s =>
        !s.admits x || s.seen.all (fun write => write.value ≠ some ρ.roster.bytes) && s.offered ≠ ρ.roster.bytes) &&
      (w.machine 0).table.all (· ∈ (w.machine 1).table) && (w.machine 1).table.all (· ∈ (w.machine 0).table) &&
      (w.machine 0).anchor = some (scheme.public key) &&
      (w.machine 0).standingIn scheme x none nowMs = .trusted

theorem undone_spec {scheme : Scheme} {key : scheme.SecretKey} {w : World (Fin 2)} {nowMs : UInt64}
    (is : undone scheme key w x nowMs = true) :
    ∃ ρ ∈ w.signed, ρ.Revokes x ∧ (∀ s ∈ w.signed, s.Admits x → ¬s.Saw scheme key ρ.roster) ∧ w.Merged ∧
      (w.machine 0).anchor = some (scheme.public key) ∧
      (w.machine 0).standingIn scheme x none nowMs = .trusted := by
  unfold undone at is
  split at is
  · cases is
  · next ρ second =>
    simp only [Bool.and_eq_true, decide_eq_true_eq] at is
    obtain ⟨⟨⟨⟨⟨revokes, unseen⟩, left⟩, right⟩, anchor⟩, trusted⟩ := is
    refine ⟨ρ, List.mem_of_getElem? second, Signing.revokes_spec revokes, ?_, ?_, anchor, trusted⟩
    · intro s mem admits saw
      have here := List.all_eq_true.mp unseen s mem
      rw [Signing.admits_spec admits, Bool.not_true, Bool.false_or, Bool.and_eq_true, decide_eq_true_eq] at here
      obtain ⟨_, write, inside, value⟩ | ⟨_, offered⟩ := saw
      · exact absurd value (of_decide_eq_true (List.all_eq_true.mp here.1 write inside))
      · exact here.2 offered
    · intro i j write mem
      obtain rfl | rfl : i = 0 ∨ i = 1 := by omega
      · obtain rfl | rfl : j = 0 ∨ j = 1 := by omega
        · exact mem
        · exact of_decide_eq_true (List.all_eq_true.mp left write mem)
      · obtain rfl | rfl : j = 0 ∨ j = 1 := by omega
        · exact of_decide_eq_true (List.all_eq_true.mp right write mem)
        · exact mem

/-- The run and what is to be seen of it, with the signatures of a scheme. -/
def RefreshedUndone (scheme : Scheme) (key : scheme.SecretKey) : Prop :=
  Khor.Fits (step scheme key) (fun w e => check scheme key w e = true) twoHolders refreshed ∧
    undone scheme key (refreshed.foldl (step scheme key) twoHolders) (idOf 2) 691200000 = true

theorem refreshed_undone : RefreshedUndone sumScheme sumKey := by
  refine of_listScheme (P := RefreshedUndone) ?_
  unfold RefreshedUndone
  decide +kernel

/-- The refresh of a holder that has not received it undoes a revocation: nobody who had it admitted the machine,
the tables are merged, and the machine is trusted. -/
theorem a_refresh_undoes : ∃ w, Start sumScheme sumKey twoHolders ∧
    Runs (step sumScheme sumKey) (Permitted sumScheme sumKey) twoHolders w ∧
    ∃ ρ ∈ w.signed, ρ.Revokes (idOf 2) ∧
      (∀ s ∈ w.signed, s.Admits (idOf 2) → ¬s.Saw sumScheme sumKey ρ.roster) ∧ w.Merged ∧
      (w.machine 0).anchor = some (sumScheme.public sumKey) ∧
      (w.machine 0).standingIn sumScheme (idOf 2) none 691200000 = .trusted :=
  ⟨_, twoHolders_start, runs_of_check refreshed_undone.1, undone_spec refreshed_undone.2⟩

/-- The first revokes a machine, and the second hears of it. -/
def heard : List (Event (Fin 2)) := [.revokeHere 0 (idOf 2) 2, .send 0, .merge 1 0, .send 1, .merge 0 1]

/-- One roster alone is timely. -/
theorem timely_of_one {scheme : Scheme} {key : scheme.SecretKey} {signed : List Signing}
    (one : signed.length ≤ 1) : Timely scheme key signed := by
  intro ρ mem s mem' x _ _ less
  obtain ⟨i, hi, rfl⟩ := List.getElem_of_mem mem
  obtain ⟨j, hj, rfl⟩ := List.getElem_of_mem mem'
  obtain rfl : i = j := by omega
  exact absurd less (lt_irrefl _)

/-- What is to be seen where the second machine has heard of it. -/
def heardIn (scheme : Scheme) (key : scheme.SecretKey) (w : World (Fin 2)) (x : Id) : Bool :=
  w.signed.any (·.revokes x) && w.signed.all (fun s => !s.admits x) &&
    (w.machine 0).table = (w.machine 1).table && (w.machine 1).anchor = some (scheme.public key)

theorem heardIn_spec {scheme : Scheme} {key : scheme.SecretKey} {w : World (Fin 2)}
    (is : heardIn scheme key w x = true) :
    ∃ ρ ∈ w.signed, ρ.Revokes x ∧ (∀ s ∈ w.signed, s.Admits x → ¬s.Saw scheme key ρ.roster) ∧ w.Merged ∧
      (w.machine 1).anchor = some (scheme.public key) := by
  unfold heardIn at is
  simp only [Bool.and_eq_true, decide_eq_true_eq] at is
  obtain ⟨⟨⟨revokes, unadmitted⟩, merged⟩, anchor⟩ := is
  obtain ⟨ρ, mem, revokes⟩ := List.any_eq_true.mp revokes
  refine ⟨ρ, mem, Signing.revokes_spec revokes, ?_, ?_, anchor⟩
  · intro s mem admits
    have none := List.all_eq_true.mp unadmitted s mem
    rw [Signing.admits_spec admits] at none
    cases none
  · intro i j write inside
    obtain rfl | rfl : i = 0 ∨ i = 1 := by omega
    · obtain rfl | rfl : j = 0 ∨ j = 1 := by omega
      · exact inside
      · exact merged ▸ inside
    · obtain rfl | rfl : j = 0 ∨ j = 1 := by omega
      · exact merged.symm ▸ inside
      · exact inside

/-- The second holder's run, with the signatures of a scheme. -/
def HeardFits (scheme : Scheme) (key : scheme.SecretKey) : Prop :=
  Khor.Fits (step scheme key)
    (fun w e => check scheme key w e = true ∧ (step scheme key w e).signed.length ≤ 1) twoHolders heard ∧
  heardIn scheme key (heard.foldl (step scheme key) twoHolders) (idOf 2) = true

theorem heard_fits : HeardFits sumScheme sumKey := by
  refine of_listScheme (P := HeardFits) ?_
  unfold HeardFits
  decide +kernel

/-- The second machine refuses it. -/
theorem heard_lasts :
    ((heard.foldl (step sumScheme sumKey) twoHolders).machine 1).standingIn sumScheme (idOf 2) none 3 = .revoked := by
  have run : Runs (step sumScheme sumKey) (Orderly sumScheme sumKey) twoHolders
      (heard.foldl (step sumScheme sumKey) twoHolders) :=
    heard_fits.1.runs.mono fun ok => ⟨permitted_of_check ok.1, timely_of_one ok.2⟩
  obtain ⟨ρ, mem, revokes, unadmitted, merged, anchor⟩ := heardIn_spec heard_fits.2
  exact (revocation_lasts twoHolders_start run).1 ρ mem (idOf 2) revokes unadmitted merged 1 anchor none 3

end Khor.Net
