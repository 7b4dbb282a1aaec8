/-
Module: Khor.Net.Received
Purpose: The roster that counts in a table is the newest it has received: what is dropped or written over is
  replaced by a newer one, and merging two tables keeps this.
Trusted boundary: different rosters get different keys
Main exports: Received, Kept, Apart, newest_received, Kept.merge
-/
import Khor.Net.Table

namespace Khor.Net

section Signed

variable {scheme : Scheme} {key : scheme.SecretKey}

variable {r : Roster} {bytes : List UInt8}

/-- A roster that verifies says what was signed. -/
theorem verified_signRoster {seq issuedMs : UInt64} {certs : List (List UInt8)} {revoked : List Id}
    (ok : verified scheme key (signRoster scheme key seq issuedMs certs revoked) = some r) :
    r.seq = seq ∧ r.issuedMs = issuedMs ∧ r.revoked = revoked := by
  unfold verified verifyRoster signRoster at ok
  rw [frame_seal rfl] at ok
  by_cases short : (rosterBody.put ⟨scheme.public key, seq, issuedMs, certs, revoked⟩).length < 2 ^ 32
  · rw [if_pos short] at ok
    have body := Coding.takeAll_put (rosterBody_reads short)
    simp only [decode, body, ne_eq, not_true_eq_false, if_false] at ok
    split at ok
    · cases ok
    · split at ok
      · cases ok
      · cases ok
        exact ⟨rfl, rfl, rfl⟩
  · rw [if_neg short] at ok
    cases ok

theorem verified_bytes (ok : verified scheme key bytes = some r) :
    verifyRoster scheme bytes (scheme.public key) = .ok r ∧ r.bytes = bytes := by
  unfold verified at ok
  cases read : verifyRoster scheme bytes (scheme.public key) with
  | error e =>
      rw [read] at ok
      cases ok
  | ok r' =>
      rw [read] at ok
      cases ok
      exact ⟨rfl, (verifyRoster_root read).2.1⟩

theorem verified_iff :
    verified scheme key bytes = some r ↔ verifyRoster scheme bytes (scheme.public key) = .ok r := by
  refine ⟨fun ok => (verified_bytes ok).1, fun ok => ?_⟩
  unfold verified
  rw [ok]
  rfl

/-- The same bytes, the same roster. -/
theorem verified_rank {bytes' : List UInt8} {r' : Roster} (ok : verified scheme key bytes = some r)
    (ok' : verified scheme key bytes' = some r') (same : r.rank = r'.rank) : r = r' := by
  have bytes_ : bytes = bytes' := by
    rw [← (verified_bytes ok).2, ← (verified_bytes ok').2]
    exact rank_bytes same
  rw [bytes_, ok'] at ok
  exact (Option.some.inj ok).symm

end Signed

section Tables

variable (scheme : Scheme) (key : scheme.SecretKey)

/-- A roster of the root that was written into a table at some time. -/
def Received (t : Table) (r : Roster) : Prop :=
  verified scheme key r.bytes = some r ∧ ∃ w ∈ t, w.value = some r.bytes

/-- A roster of the root that was stored under its own key. -/
def Stored (t : Table) (r : Roster) : Prop :=
  verified scheme key r.bytes = some r ∧ ∃ w ∈ t, w.key = rosterKey r ∧ w.value = some r.bytes

/-- What replaces a roster whose key was dropped by a write: a newer one, or its own bytes again, later. -/
def Replaced (t : Table) (dropped : Write RosterKey (List UInt8)) (r : Roster) : Prop :=
  ∃ r', Stored scheme key t r' ∧
    (r.rank < r'.rank ∨ ∃ w ∈ t, w.key = dropped.key ∧ dropped.stamp < w.stamp)

/-- What a write of a table keeps to: a roster stands under its own key, one that is archived is not newer than
what is stored, and one that was dropped is replaced. -/
structure Fine (t : Table) (w : Write RosterKey (List UInt8)) : Prop where
  named : ∀ seq tail, w.key = .version seq tail → ∀ bytes, w.value = some bytes →
    ∀ r, verified scheme key bytes = some r → w.key = rosterKey r
  archived : ∀ pairing recipient, w.key = .archive pairing recipient → ∀ bytes, w.value = some bytes →
    ∀ r, verified scheme key bytes = some r → ∃ r', Stored scheme key t r' ∧ r.rank ≤ r'.rank
  dropped : ∀ seq tail, w.key = .version seq tail → w.value = none →
    ∃ w' ∈ t, w'.key = w.key ∧ ∃ bytes, w'.value = some bytes ∧
      ∀ r, verified scheme key bytes = some r → Replaced scheme key t w r

/-- What every table of the network keeps to. -/
def Kept (t : Table) : Prop := ∀ w ∈ t, Fine scheme key t w

/-- Rosters that differ have keys that differ. -/
def Apart (t : Table) : Prop :=
  ∀ w ∈ t, ∀ w' ∈ t, ∀ seq tail, w.key = .version seq tail → w'.key = w.key → ∀ bytes bytes',
    w.value = some bytes → w'.value = some bytes' → bytes = bytes'

variable {scheme key} {t t' : Table}

variable {r : Roster} {peer : Nat}

theorem Stored.received (h : Stored scheme key t r) : Received scheme key t r :=
  let ⟨ok, w, mem, _, value⟩ := h
  ⟨ok, w, mem, value⟩

theorem Received.mono {r : Roster} (h : Received scheme key t r) (more : t ⊆ t') : Received scheme key t' r :=
  let ⟨ok, w, mem, value⟩ := h
  ⟨ok, w, more mem, value⟩

theorem Stored.mono {r : Roster} (h : Stored scheme key t r) (more : t ⊆ t') : Stored scheme key t' r :=
  let ⟨ok, w, mem, rest⟩ := h
  ⟨ok, w, more mem, rest⟩

theorem Replaced.mono {r : Roster} {w : Write RosterKey (List UInt8)} (h : Replaced scheme key t w r)
    (more : t ⊆ t') : Replaced scheme key t' w r := by
  obtain ⟨r', stored, newer | ⟨w', mem, later⟩⟩ := h
  · exact ⟨r', stored.mono more, .inl newer⟩
  · exact ⟨r', stored.mono more, .inr ⟨w', more mem, later⟩⟩

theorem Fine.mono {w : Write RosterKey (List UInt8)} (h : Fine scheme key t w) (more : t ⊆ t') :
    Fine scheme key t' w where
  named := h.named
  archived := by
    intro pairing recipient at_ bytes value r ok
    obtain ⟨r', stored, le⟩ := h.archived pairing recipient at_ bytes value r ok
    exact ⟨r', stored.mono more, le⟩
  dropped := by
    intro seq tail at_ none_
    obtain ⟨w', mem, same, bytes, value, replaced⟩ := h.dropped seq tail at_ none_
    exact ⟨w', more mem, same, bytes, value, fun r ok => (replaced r ok).mono more⟩

/-- What was received is at most what is stored. -/
theorem Kept.stored_above (kept : Kept scheme key t) (received : Received scheme key t r) :
    ∃ r', Stored scheme key t r' ∧ r.rank ≤ r'.rank := by
  obtain ⟨ok, w, mem, value⟩ := received
  cases at_ : w.key with
  | version seq tail => exact ⟨r, ⟨ok, w, mem, (kept w mem).named seq tail at_ _ value r ok, value⟩, le_rfl⟩
  | archive pairing recipient => exact (kept w mem).archived pairing recipient at_ _ value r ok

theorem rosterKey_version (r : Roster) : ∃ seq tail, rosterKey r = .version seq tail := ⟨_, _, rfl⟩

/-- The newest roster received is there. -/
theorem Kept.held (kept : Kept scheme key t) (apart : Apart t) (stored : Stored scheme key t r)
    (above : ∀ r', Received scheme key t r' → r'.rank ≤ r.rank) : t.get (rosterKey r) = some r.bytes := by
  obtain ⟨ok, w, mem, at_, value⟩ := stored
  obtain ⟨seq, tail, version⟩ := rosterKey_version r
  obtain ⟨w', latest⟩ := Register.latest_of_mem mem
  obtain ⟨mem', same, after⟩ := Register.latest_spec latest
  rw [← at_, Register.get, latest, Option.bind_some]
  cases value' : w'.value with
  | some bytes => rw [apart w mem w' mem' seq tail (at_.trans version) same _ _ value value']
  | none =>
      obtain ⟨x, inside, sameKey, bytes, holds, replaced⟩ :=
        (kept w' mem').dropped seq tail (same.trans (at_.trans version)) value'
      have bytes_ : r.bytes = bytes :=
        apart w mem x inside seq tail (at_.trans version) (sameKey.trans same) _ _ value holds
      obtain ⟨r', stored', newer | ⟨y, there, key_, later⟩⟩ := replaced r (bytes_ ▸ ok)
      · exact absurd (above r' stored'.received) (not_le.mpr newer)
      · exact absurd (after y there (key_.trans same)) (not_le.mpr later)

theorem received_of_counts (counts : Counts scheme (scheme.public key) (t.rosters.map (·.2)) r) :
    Received scheme key t r := by
  obtain ⟨bytes, listed, ok⟩ := counts
  obtain ⟨⟨k, v⟩, entry, rfl⟩ := List.mem_map.mp listed
  obtain ⟨w, mem, _, value⟩ := Register.get_mem (Register.mem_entries.mp entry)
  have bytes_ := (verifyRoster_root ok).2.1
  exact ⟨bytes_.symm ▸ verified_iff.mpr ok, w, mem, bytes_.symm ▸ value⟩

/-- Of the rosters received one is the newest. -/
theorem exists_newest (received : Received scheme key t r) :
    ∃ m, Received scheme key t m ∧ ∀ r', Received scheme key t r' → r'.rank ≤ m.rank := by
  have listed : ∀ {r'}, Received scheme key t r' →
      r' ∈ t.filterMap fun w => w.value.bind (verified scheme key) := by
    rintro r' ⟨ok, w, mem, value⟩
    exact List.mem_filterMap.mpr ⟨w, mem, by rw [value, Option.bind_some, ok]⟩
  cases found : (t.filterMap fun w => w.value.bind (verified scheme key)).argmax Roster.rank with
  | none =>
      have mem := listed received
      rw [List.argmax_eq_none.mp found] at mem
      cases mem
  | some m =>
      refine ⟨m, ?_, fun r' received' => List.le_of_mem_argmax (listed received') found⟩
      obtain ⟨w, mem, is⟩ := List.mem_filterMap.mp (List.argmax_mem found)
      obtain ⟨bytes, value, ok⟩ := Option.bind_eq_some_iff.mp is
      have bytes_ := (verified_bytes ok).2
      exact ⟨bytes_.symm ▸ ok, w, mem, bytes_.symm ▸ value⟩

/-- The newest roster received counts. -/
theorem newest_of_received (kept : Kept scheme key t) (apart : Apart t) (received : Received scheme key t r)
    (above : ∀ r', Received scheme key t r' → r'.rank ≤ r.rank) : t.newestIn scheme (scheme.public key) = some r := by
  obtain ⟨r', stored, le⟩ := kept.stored_above received
  have same : r = r' := verified_rank received.1 stored.1 (le_antisymm le (above r' stored.received))
  subst same
  have entry := Register.mem_entries.mpr (kept.held apart stored above)
  have counts : Counts scheme (scheme.public key) (t.rosters.map (·.2)) r :=
    ⟨r.bytes, List.mem_map.mpr ⟨_, entry, rfl⟩, verified_iff.mp received.1⟩
  exact newest_eq_some.mpr ⟨counts, fun r' counts' => above r' (received_of_counts counts')⟩

/-- The roster that counts is the newest one received. -/
theorem newest_received (kept : Kept scheme key t) (apart : Apart t) :
    t.newestIn scheme (scheme.public key) = some r ↔
      Received scheme key t r ∧ ∀ r', Received scheme key t r' → r'.rank ≤ r.rank := by
  refine ⟨fun found => ?_, fun h => newest_of_received kept apart h.1 h.2⟩
  have received := received_of_counts (newest_eq_some.mp found).1
  obtain ⟨m, inside, above⟩ := exists_newest received
  have same := newest_of_received kept apart inside above
  rw [found] at same
  cases same
  exact ⟨inside, above⟩

/-! ### What keeps to it -/

theorem Kept.merge (kept : Kept scheme key t) (kept' : Kept scheme key t') :
    Kept scheme key (Register.merge t t') := by
  intro w mem
  obtain mem | mem := Register.mem_merge.mp mem
  · exact (kept w mem).mono fun x inside => Register.mem_merge.mpr (.inl inside)
  · exact (kept' w mem).mono fun x inside => Register.mem_merge.mpr (.inr inside)

theorem lt_of_seq {r' : Roster} (lt : r.seq < r'.seq) : r.rank < r'.rank :=
  Prod.Lex.toLex_lt_toLex.mpr (.inl (UInt64.lt_iff_toNat_lt.mp lt))

theorem subset_storeRoster (t : Table) (peer : Nat) (r : Roster) : t ⊆ t.storeRoster peer r :=
  List.Subset.trans Register.subset_put Register.subset_deletes

theorem stored_storeRoster (t : Table) (peer : Nat) (ok : verified scheme key r.bytes = some r) :
    Stored scheme key (t.storeRoster peer r) r := by
  obtain ⟨w, mem, at_, value⟩ := @Register.put_mem _ _ _ t _ peer (rosterKey r) r.bytes
  exact ⟨ok, w, Register.subset_deletes mem, at_, value⟩

/-- Storing a roster drops the ones of lower number, which it replaces. -/
theorem kept_storeRoster (ok : verified scheme key r.bytes = some r)
    (fine : ∀ w ∈ t, Fine scheme key (t.storeRoster peer r) w) : Kept scheme key (t.storeRoster peer r) := by
  have stored := stored_storeRoster t peer ok
  have fine' : ∀ w ∈ Register.put t peer (rosterKey r) r.bytes, Fine scheme key (t.storeRoster peer r) w := by
    intro w mem
    obtain ⟨same, _⟩ | written := Register.put_cases t peer (rosterKey r) r.bytes
    · exact fine w (same ▸ mem)
    · rw [written] at mem
      obtain mem | rfl := Register.mem_write.mp mem
      · exact fine w mem
      · refine ⟨fun _ _ _ bytes value r' ok' => ?_, nofun, nofun⟩
        cases value
        cases ok.symm.trans ok'
        rfl
  intro w mem
  obtain old | ⟨none_, listed, bytes, held⟩ := Register.mem_deletes mem
  · exact fine' w old
  · have less := (List.mem_filter.mp listed).2
    refine ⟨fun _ _ _ bytes value => ?_, fun _ _ _ bytes value => ?_, fun seq tail at_ _ => ?_⟩
    · rw [none_] at value
      cases value
    · rw [none_] at value
      cases value
    · obtain ⟨x, inside, same, value⟩ := Register.get_mem held
      refine ⟨x, Register.subset_deletes inside, same, bytes, value, fun r' ok' => ⟨r, stored, .inl ?_⟩⟩
      have named := (fine' x inside).named seq tail (same.trans at_) bytes value r' ok'
      rw [← same, named] at less
      exact lt_of_seq (of_decide_eq_true less)

theorem Kept.storeRoster (kept : Kept scheme key t) (peer : Nat) (ok : verified scheme key r.bytes = some r) :
    Kept scheme key (t.storeRoster peer r) :=
  kept_storeRoster ok fun w mem => (kept w mem).mono (subset_storeRoster t peer r)

/-- A table that is cleared for a roster of the root, where no other one of the root counts. -/
theorem Kept.adopt (kept : Kept scheme key t) (apart : Apart t) (peer : Nat)
    (ok : verified scheme key r.bytes = some r)
    (only : ∀ r', t.newestIn scheme (scheme.public key) = some r' → r'.bytes = r.bytes) :
    Kept scheme key ((t.dropRosters peer ((t.rosters.map (·.1)).filter Table.isVersion)).storeRoster peer r) := by
  generalize same : t.dropRosters peer ((t.rosters.map (·.1)).filter Table.isVersion) = cleared
  have whole : t ⊆ cleared := same ▸ Register.subset_deletes
  have more : t ⊆ cleared.storeRoster peer r := List.Subset.trans whole (subset_storeRoster cleared peer r)
  have stored := stored_storeRoster cleared peer ok
  refine kept_storeRoster ok fun w mem => ?_
  have mem' := mem
  rw [← same] at mem'
  obtain old | ⟨none_, listed, bytes, held⟩ := Register.mem_deletes mem'
  · exact (kept w old).mono more
  · refine ⟨fun _ _ _ bytes value => ?_, fun _ _ _ bytes value => ?_, fun seq tail at_ _ => ?_⟩
    · rw [none_] at value
      cases value
    · rw [none_] at value
      cases value
    · obtain ⟨x, inside, sameKey, value⟩ := Register.get_mem held
      refine ⟨x, more inside, sameKey, bytes, value, fun r' ok' => ⟨r, stored, ?_⟩⟩
      have bytes_ := (verified_bytes ok').2
      have received : Received scheme key t r' := ⟨bytes_.symm ▸ ok', x, inside, bytes_.symm ▸ value⟩
      -- The newest of the root is the roster itself.
      obtain ⟨m, first, above⟩ := exists_newest received
      have newest := only m (newest_of_received kept apart first above)
      have m_ : m = r := by
        have okm := first.1
        rw [newest, ok] at okm
        exact (Option.some.inj okm).symm
      subst m_
      obtain less | equal := lt_or_eq_of_le (above r' received)
      · exact .inl less
      · right
        have r'_ : r' = m := verified_rank received.1 ok equal
        subst r'_
        have named : w.key = rosterKey r' :=
          sameKey ▸ (kept x inside).named seq tail (sameKey.trans at_) bytes value r' ok'
        have gone : Register.get cleared (rosterKey r') = none := by
          rw [← same, ← named]
          exact (Register.get_deletes t peer _ w.key).trans (if_pos listed)
        obtain ⟨_, still⟩ | written := Register.put_cases cleared peer (rosterKey r') r'.bytes
        · rw [gone] at still
          cases still
        · refine ⟨⟨Register.now cleared, peer, rosterKey r', some r'.bytes⟩, ?_, named.symm, ?_⟩
          · refine Register.subset_deletes ?_
            rw [written]
            exact Register.mem_write.mpr (.inr rfl)
          · exact Prod.Lex.toLex_lt_toLex.mpr (.inl (Register.clock_lt_now mem))

/-- Archiving what is not newer than what is stored. -/
theorem Kept.archive (kept : Kept scheme key t) (peer : Nat) {pairing recipient : Id} {bytes : List UInt8}
    (known : ∀ r, verified scheme key bytes = some r → ∃ r', Stored scheme key t r' ∧ r.rank ≤ r'.rank) :
    Kept scheme key (Register.put t peer (.archive pairing recipient) bytes) := by
  intro w mem
  obtain ⟨same, _⟩ | written := Register.put_cases t peer (.archive pairing recipient) bytes
  · rw [same] at mem ⊢
    exact kept w mem
  · have more : t ⊆ Register.put t peer (.archive pairing recipient) bytes := Register.subset_put
    rw [written] at mem more ⊢
    obtain mem | rfl := Register.mem_write.mp mem
    · exact (kept w mem).mono more
    · refine ⟨nofun, fun _ _ _ bytes' value r ok => ?_, nofun⟩
      cases value
      obtain ⟨r', stored, le⟩ := known r ok
      exact ⟨r', stored.mono more, le⟩

/-- Dropping archives. -/
theorem Kept.collect (kept : Kept scheme key t) (peer : Nat) (recipient : Id) (pairings : List Id) :
    Kept scheme key (t.dropRosters peer (pairings.map fun p => .archive p recipient)) := by
  intro w mem
  obtain old | ⟨none_, listed, _⟩ := Register.mem_deletes mem
  · exact (kept w old).mono Register.subset_deletes
  · obtain ⟨p, _, at_⟩ := List.mem_map.mp listed
    refine ⟨fun _ _ _ bytes value => ?_, fun _ _ _ bytes value => ?_, fun seq tail version _ => ?_⟩
    · rw [none_] at value
      cases value
    · rw [none_] at value
      cases value
    · rw [← at_] at version
      cases version

/-! ### What is received -/

/-- Deleting keys, a table receives no roster. -/
theorem received_deletes {keys : List RosterKey} (received : Received scheme key (t.dropRosters peer keys) r) :
    Received scheme key t r := by
  obtain ⟨ok, w, mem, value⟩ := received
  obtain old | ⟨none_, _⟩ := Register.mem_deletes mem
  · exact ⟨ok, w, old, value⟩
  · rw [none_] at value
    cases value

theorem received_put {k : RosterKey} {bytes : List UInt8}
    (received : Received scheme key (Register.put t peer k bytes) r) :
    Received scheme key t r ∨ verified scheme key bytes = some r := by
  obtain ⟨ok, w, mem, value⟩ := received
  obtain ⟨same, _⟩ | written := Register.put_cases t peer k bytes
  · exact .inl ⟨ok, w, same ▸ mem, value⟩
  · rw [written] at mem
    obtain old | rfl := Register.mem_write.mp mem
    · exact .inl ⟨ok, w, old, value⟩
    · cases value
      exact .inr ok

theorem received_storeRoster {r' : Roster} (ok : verified scheme key r.bytes = some r)
    (received : Received scheme key (t.storeRoster peer r) r') : Received scheme key t r' ∨ r' = r := by
  obtain old | same := received_put (received_deletes received)
  · exact .inl old
  · exact .inr (Option.some.inj (same.symm.trans ok))

theorem received_merge (received : Received scheme key (Register.merge t t') r) :
    Received scheme key t r ∨ Received scheme key t' r := by
  obtain ⟨ok, w, mem, value⟩ := received
  exact (Register.mem_merge.mp mem).imp (fun mem => ⟨ok, w, mem, value⟩) fun mem => ⟨ok, w, mem, value⟩

end Tables

end Khor.Net
