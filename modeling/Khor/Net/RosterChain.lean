/-
Module: Khor.Net.RosterChain
Purpose: What a chain of rosters admits. Each roster is the signed form of a sheet: certificates and
  revoked ids, without bytes. A chain whose bodies all fit the frame's length verifies at every step, one
  number after the other, and admits exactly the ids that were admitted last.
Trusted boundary: a signature verifies exactly when the key made it
Main exports: Sheet, Sheet.next, Sheet.roster, change_sheet, roster_chain_lawful
-/
import Khor.Net.Trust

namespace Khor.Net

/-- What a roster says, apart from its bytes. -/
structure Sheet where
  seq : UInt64
  issuedMs : UInt64
  certs : List Cert
  revoked : List Id

section Chain

variable (scheme : Scheme) (key : scheme.SecretKey)

/-! ### Sheets -/

def Sheet.genesis (nowMs : UInt64) (members : List Member) : Sheet :=
  { seq := 1, issuedMs := nowMs, certs := members.map fun m => certOf scheme key m 1 nowMs,
    revoked := [] }

/-- What a step makes of a sheet. -/
def Sheet.next (s : Sheet) : Change → Sheet
  | .admitMember nowMs m =>
      { seq := s.seq + 1
        issuedMs := nowMs
        certs := (s.certs.filter fun c => c.subject ≠ m.subject) ++
          [certOf scheme key m (s.seq + 1) nowMs]
        revoked := s.revoked.filter (· ≠ m.subject) }
  | .revoke nowMs id =>
      { seq := s.seq + 1
        issuedMs := nowMs
        certs := s.certs.filter fun c => c.subject ≠ id
        revoked := if s.revoked.contains id then s.revoked else s.revoked ++ [id] }
  | .refresh nowMs => { s with seq := s.seq + 1, issuedMs := nowMs }

/-- The sheet after a history. -/
def sheetAfter (nowMs : UInt64) (members : List Member) (changes : List Change) : Sheet :=
  changes.foldl (Sheet.next scheme key) (Sheet.genesis scheme key nowMs members)

/-- The body that is signed for a sheet. -/
def Sheet.body (s : Sheet) : List UInt8 :=
  rosterBody.put
    { root := scheme.public key, seq := s.seq, issuedMs := s.issuedMs,
      certs := s.certs.map (signCert scheme key), revoked := s.revoked }

/-- The roster that says what a sheet says. -/
def Sheet.roster (s : Sheet) : Roster where
  root := scheme.public key
  seq := s.seq
  issuedMs := s.issuedMs
  certs := s.certs
  signed := s.certs.map (signCert scheme key)
  revoked := s.revoked
  bytes := «seal» scheme ROSTER_MAGIC (s.body scheme key) key

/-- The first roster and the ones after it: each is what verifying the bytes signed over the last gives. -/
def chain (nowMs : UInt64) (members : List Member) (changes : List Change) : Except TrustError Roster :=
  changes.foldl
    (fun last c =>
      match last with
      | .error e => .error e
      | .ok r => verifyRoster scheme (r.change scheme key c) (scheme.public key))
    (verifyRoster scheme (genesis scheme key nowMs members) (scheme.public key))

/-! ### Which operation named an id last -/

/-- An operation of a history. -/
inductive Operation where
  | genesis (members : List Member)
  | change (c : Change)

def Change.names : Change → Id → Bool
  | .admitMember _ m, id => m.subject = id
  | .revoke _ id', id => id' = id
  | .refresh _, _ => false

def Operation.names : Operation → Id → Bool
  | .genesis members, id => members.any fun m => m.subject = id
  | .change c, id => c.names id

/-- `genesis` and `admit`. -/
def Operation.admits : Operation → Bool
  | .genesis _ => true
  | .change (.admitMember _ _) => true
  | .change _ => false

/-- The last operation of a history that names an id. -/
def lastNaming (members : List Member) (changes : List Change) (id : Id) : Option Operation :=
  (Operation.genesis members :: changes.map .change).reverse.find? (·.names id)

/-- Every body signed along the history fits the frame's length, and the numbers do not run out. -/
def Fits (nowMs : UInt64) (members : List Member) (changes : List Change) : Prop :=
  changes.length + 1 < 2 ^ 64 ∧
    ∀ done ∈ changes.inits, ((sheetAfter scheme key nowMs members done).body scheme key).length < 2 ^ 32

instance (nowMs : UInt64) (members : List Member) (changes : List Change) :
    Decidable (Fits scheme key nowMs members changes) :=
  inferInstanceAs (Decidable (_ ∧ _))

/-- A roster that says what the history before it amounts to. -/
structure Lawful (members : List Member) (changes : List Change) (r : Roster) : Prop where
  /-- Each number is one higher than the one before. -/
  seq : r.seq.toNat = changes.length + 1
  /-- Each certificate stands beside its own signed bytes. -/
  signed : r.signed = r.certs.map (signCert scheme key)
  /-- No subject has two certificates. -/
  once : (r.certs.map Cert.subject).Nodup
  /-- No subject is both certified and revoked. -/
  apart : ∀ c ∈ r.certs, c.subject ∉ r.revoked
  /-- An id has a certificate, and is admitted at any time, when the last operation naming it admitted
  it. -/
  certified : ∀ id, (∃ c ∈ r.certs, c.subject = id) ↔
    ∃ op, lastNaming members changes id = some op ∧ op.admits = true
  admits : ∀ id nowMs, r.admits id nowMs = true ↔
    ∃ op, lastNaming members changes id = some op ∧ op.admits = true

end Chain

section Rosters

variable {scheme : Scheme} {key : scheme.SecretKey}

/-- What every sheet of a chain has: certificates of its root that never end and claim no later number. -/
def Sheet.Rooted (scheme : Scheme) (key : scheme.SecretKey) (s : Sheet) : Prop :=
  ∀ c ∈ s.certs, c.root = scheme.public key ∧ c.seq ≤ s.seq ∧ c.expiresMs = none

theorem cert_put (c : Cert) : cert.put c =
    c.root.toList ++ (c.subject.toList ++ (kind.put c.kind ++ ((Coding.array 32).option.put c.sponsor ++
      (u64.put c.issuedMs ++ (u64.put c.seq ++ u64.option.put c.expiresMs))))) := rfl

/-- A certificate is far below the frame's limit. -/
theorem cert_short (c : Cert) : (cert.put c).length < 2 ^ 32 := by
  have number : ∀ n, (u64.put n).length ≤ 10 := fun n => putVarint_le 10 n.toNat
  have variant : (kind.put c.kind).length ≤ 5 := putVarint_le 5 _
  have sponsor : ((Coding.array 32).option.put c.sponsor).length ≤ 33 := by
    cases c.sponsor <;> simp [Coding.option, Coding.array]
  have expires : (u64.option.put c.expiresMs).length ≤ 11 := by
    cases c.expiresMs with
    | none => simp [Coding.option]
    | some n =>
        have short := number n
        simp only [Coding.option, List.length_cons]
        omega
  have issued := number c.issuedMs
  have seq := number c.seq
  rw [cert_put]
  simp only [List.length_append, Vector.length_toList]
  omega

theorem verifyCerts_signed (unforgeable : scheme.Unforgeable) {seq : UInt64} {certs : List Cert}
    (rooted : ∀ c ∈ certs, c.root = scheme.public key ∧ c.seq ≤ seq) :
    verifyCerts scheme (scheme.public key) seq (certs.map (signCert scheme key)) = .ok certs := by
  induction certs with
  | nil => rfl
  | cons c certs ih =>
      obtain ⟨root, before⟩ := rooted c (.head _)
      have rest := ih fun c' hc' => rooted c' (.tail _ hc')
      have notLater : ¬ seq < c.seq := by simpa using before
      simp only [List.map_cons, verifyCerts, verifyCert_signCert unforgeable root (cert_short c),
        notLater, if_false, rest]

variable {s : Sheet} {members : List Member} {done changes : List Change}

/-- The bytes signed for a sheet verify, and say what the sheet says, exactly if its body fits. -/
theorem verifyRoster_sheet (unforgeable : scheme.Unforgeable) (rooted : s.Rooted scheme key) :
    verifyRoster scheme (s.roster scheme key).bytes (scheme.public key) =
      if (s.body scheme key).length < 2 ^ 32 then .ok (s.roster scheme key) else .error .garbled := by
  have certs := verifyCerts_signed unforgeable fun c hc => ⟨(rooted c hc).1, (rooted c hc).2.1⟩
  rw [verifyRoster, Sheet.roster, frame_seal rfl]
  by_cases short : (s.body scheme key).length < 2 ^ 32
  · have body : rosterBody.takeAll (s.body scheme key) = some _ :=
      Coding.takeAll_put (rosterBody_reads short)
    rw [if_pos short, if_pos short]
    simp only [decode, body, ne_eq, not_true_eq_false, if_false, checkSig_sign unforgeable, certs]
  · rw [if_neg short, if_neg short]

/-- A step over a sheet's roster signs the next sheet. -/
theorem change_sheet (s : Sheet) (c : Change) :
    (s.roster scheme key).change scheme key c = ((s.next scheme key c).roster scheme key).bytes := by
  have without : ∀ id, (s.roster scheme key).without id =
      (s.certs.filter fun c => c.subject ≠ id).map (signCert scheme key) := by
    intro id
    simp only [Roster.without, Sheet.roster]
    induction s.certs with
    | nil => rfl
    | cons c certs ih =>
        by_cases same : c.subject = id
        · simpa [same] using ih
        · simpa [same] using ih
  cases c with
  | admitMember nowMs m =>
      simp only [Roster.change, Roster.admitMember, Roster.next, without]
      simp only [signRoster, Sheet.roster, Sheet.next, Sheet.body, certFor, List.map_append, List.map_cons,
        List.map_nil]
  | revoke nowMs id =>
      simp only [Roster.change, Roster.revoke, Roster.next, without]
      rfl
  | refresh nowMs => rfl

/-! ### The sheet of a history -/

/-- What holds of the sheet after a history. -/
structure Sheet.Orderly (scheme : Scheme) (key : scheme.SecretKey) (members : List Member)
    (changes : List Change) (s : Sheet) : Prop where
  seq : s.seq.toNat = changes.length + 1
  rooted : s.Rooted scheme key
  once : (s.certs.map Cert.subject).Nodup
  apart : ∀ c ∈ s.certs, c.subject ∉ s.revoked
  certified : ∀ id, (∃ c ∈ s.certs, c.subject = id) ↔
    ∃ op, lastNaming members changes id = some op ∧ op.admits = true

theorem lastNaming_concat (members : List Member) (done : List Change) (c : Change) (id : Id) :
    lastNaming members (done ++ [c]) id =
      if c.names id then some (.change c) else lastNaming members done id := by
  simp only [lastNaming, List.map_append, List.map_cons, List.map_nil, ← List.cons_append,
    List.reverse_append, List.reverse_singleton, List.singleton_append, List.find?_cons]
  cases h : c.names id <;> simp [Operation.names, h]

theorem orderly_genesis {nowMs : UInt64} (distinct : (members.map Member.subject).Nodup) :
    (Sheet.genesis scheme key nowMs members).Orderly scheme key members [] where
  seq := rfl
  rooted := by
    intro c hc
    obtain ⟨m, _, rfl⟩ := List.mem_map.mp hc
    exact ⟨rfl, UInt64.le_refl 1, rfl⟩
  once := by
    rw [Sheet.genesis, List.map_map]
    exact distinct
  apart := fun _ _ => List.not_mem_nil
  certified := by
    intro id
    constructor
    · rintro ⟨c, hc, rfl⟩
      obtain ⟨m, hm, rfl⟩ := List.mem_map.mp hc
      refine ⟨.genesis members, ?_, rfl⟩
      have named : (Operation.genesis members).names m.subject = true :=
        List.any_eq_true.mpr ⟨m, hm, decide_eq_true rfl⟩
      exact List.find?_cons_of_pos named
    · rintro ⟨op, hop, _⟩
      have same : op = .genesis members := List.mem_singleton.mp (List.mem_of_find?_eq_some hop)
      have named := List.find?_some hop
      rw [same] at named
      obtain ⟨m, hm, is⟩ := List.any_eq_true.mp named
      exact ⟨_, List.mem_map_of_mem hm, of_decide_eq_true is⟩

/-- Each step keeps the sheet in order while the numbers last. -/
theorem orderly_next (h : s.Orderly scheme key members done) (c : Change) (last : done.length + 2 < 2 ^ 64) :
    (s.next scheme key c).Orderly scheme key members (done ++ [c]) := by
  have step : (s.seq + 1).toNat = done.length + 2 := by
    rw [UInt64.toNat_add, h.seq]
    exact Nat.mod_eq_of_lt last
  have later : ∀ {n : UInt64}, n ≤ s.seq → n ≤ s.seq + 1 := by
    intro n le
    have bound := UInt64.le_iff_toNat_le.mp le
    rw [UInt64.le_iff_toNat_le, step]
    rw [h.seq] at bound
    omega
  have kept : ∀ {c' : Cert} {id : Id}, c' ∈ s.certs.filter (fun c => c.subject ≠ id) ↔
      c' ∈ s.certs ∧ c'.subject ≠ id := by
    intro c' id
    simp [List.mem_filter]
  have keptOnce : ∀ id : Id, ((s.certs.filter fun c => c.subject ≠ id).map Cert.subject).Nodup :=
    fun id => h.once.sublist (List.filter_sublist.map _)
  have length : (done ++ [c]).length + 1 = done.length + 2 := by simp
  cases c with
  | admitMember nowMs m =>
      refine ⟨step.trans length.symm, ?_, ?_, ?_, ?_⟩
      · intro c' hc'
        rcases List.mem_append.mp hc' with old | new
        · obtain ⟨root, before, live⟩ := h.rooted c' (kept.mp old).1
          exact ⟨root, later before, live⟩
        · rw [List.mem_singleton.mp new]
          exact ⟨rfl, UInt64.le_refl _, rfl⟩
      · simp only [Sheet.next, List.map_append, List.map_cons, List.map_nil]
        refine List.nodup_append.mpr ⟨keptOnce m.subject, List.nodup_singleton _, ?_⟩
        intro id hid id' hid' same
        obtain ⟨c', hc', rfl⟩ := List.mem_map.mp hid
        exact (kept.mp hc').2 (same.trans (List.mem_singleton.mp hid'))
      · intro c' hc' revoked
        obtain ⟨listed, other⟩ := List.mem_filter.mp revoked
        rcases List.mem_append.mp hc' with old | new
        · exact h.apart c' (kept.mp old).1 listed
        · rw [List.mem_singleton.mp new] at other
          exact of_decide_eq_true other rfl
      · intro id
        rw [lastNaming_concat]
        by_cases named : m.subject = id
        · rw [if_pos (show (Change.admitMember nowMs m).names id = true from decide_eq_true named)]
          refine ⟨fun _ => ⟨_, rfl, rfl⟩, fun _ => ?_⟩
          exact ⟨_, List.mem_append_right _ (List.mem_singleton_self _), named⟩
        · rw [if_neg (by simpa [Change.names] using named), ← h.certified]
          constructor
          · rintro ⟨c', hc', rfl⟩
            rcases List.mem_append.mp hc' with old | new
            · exact ⟨c', (kept.mp old).1, rfl⟩
            · rw [List.mem_singleton.mp new] at named
              exact absurd rfl named
          · rintro ⟨c', hc', rfl⟩
            exact ⟨c', List.mem_append_left _ (kept.mpr ⟨hc', Ne.symm named⟩), rfl⟩
  | revoke nowMs id' =>
      refine ⟨step.trans length.symm, ?_, keptOnce id', ?_, ?_⟩
      · intro c' hc'
        obtain ⟨root, before, live⟩ := h.rooted c' (kept.mp hc').1
        exact ⟨root, later before, live⟩
      · intro c' hc' revoked
        obtain ⟨held, other⟩ := kept.mp hc'
        have listed : c'.subject ∈ s.revoked := by
          simp only [Sheet.next] at revoked
          split at revoked
          · exact revoked
          · rcases List.mem_append.mp revoked with old | new
            · exact old
            · exact absurd (List.mem_singleton.mp new) other
        exact h.apart c' held listed
      · intro id
        rw [lastNaming_concat]
        by_cases named : id' = id
        · rw [if_pos (show (Change.revoke nowMs id').names id = true from decide_eq_true named)]
          constructor
          · rintro ⟨c', hc', rfl⟩
            exact absurd named.symm (kept.mp hc').2
          · rintro ⟨op, hop, admitted⟩
            cases hop
            cases admitted
        · rw [if_neg (by simpa [Change.names] using named), ← h.certified]
          constructor
          · rintro ⟨c', hc', rfl⟩
            exact ⟨c', (kept.mp hc').1, rfl⟩
          · rintro ⟨c', hc', rfl⟩
            exact ⟨c', kept.mpr ⟨hc', Ne.symm named⟩, rfl⟩
  | refresh nowMs =>
      refine ⟨step.trans length.symm, ?_, h.once, h.apart, ?_⟩
      · intro c' hc'
        obtain ⟨root, before, live⟩ := h.rooted c' hc'
        exact ⟨root, later before, live⟩
      · intro id
        rw [lastNaming_concat]
        exact h.certified id

/-- The roster of an orderly sheet says what the history amounts to. -/
theorem Sheet.Orderly.lawful (h : s.Orderly scheme key members changes) :
    Lawful scheme key members changes (s.roster scheme key) where
  seq := h.seq
  signed := rfl
  once := h.once
  apart := h.apart
  certified := h.certified
  admits := by
    intro id nowMs
    rw [← h.certified]
    have found : (s.roster scheme key).cert id = s.certs.find? fun c => c.subject = id := rfl
    constructor
    · intro admitted
      rw [Roster.admits, found, Bool.and_eq_true] at admitted
      cases hc : s.certs.find? fun c => c.subject = id with
      | none =>
          rw [hc] at admitted
          cases admitted.2
      | some c =>
          exact ⟨c, List.mem_of_find?_eq_some hc, by simpa using List.find?_some hc⟩
    · rintro ⟨c, hc, rfl⟩
      have unrevoked : (s.roster scheme key).isRevoked c.subject = false := by
        simpa [Roster.isRevoked, Sheet.roster] using h.apart c hc
      obtain ⟨c', hc'⟩ : ∃ c', s.certs.find? (fun c' => c'.subject = c.subject) = some c' :=
        Option.isSome_iff_exists.mp (List.find?_isSome.mpr ⟨c, hc, decide_eq_true rfl⟩)
      have live : c'.liveAt nowMs = true := by
        rw [Cert.liveAt, (h.rooted c' (List.mem_of_find?_eq_some hc')).2.2]
      rw [Roster.admits, unrevoked, found, hc']
      exact live

/-! ### The chain -/

variable {nowMs : UInt64} {members : List Member}

theorem chain_concat (done : List Change) (c : Change) :
    chain scheme key nowMs members (done ++ [c]) =
      match chain scheme key nowMs members done with
      | .error e => .error e
      | .ok r => verifyRoster scheme (r.change scheme key c) (scheme.public key) := by
  simp only [chain, List.foldl_append, List.foldl_cons, List.foldl_nil]

theorem sheetAfter_concat (done : List Change) (c : Change) :
    sheetAfter scheme key nowMs members (done ++ [c]) =
      (sheetAfter scheme key nowMs members done).next scheme key c := by
  simp only [sheetAfter, List.foldl_append, List.foldl_cons, List.foldl_nil]

/-- The sheet after a history is in order while the numbers last. -/
theorem orderly_after (distinct : (members.map Member.subject).Nodup) (last : done.length + 1 < 2 ^ 64) :
    (sheetAfter scheme key nowMs members done).Orderly scheme key members done := by
  induction done using List.reverseRecOn with
  | nil => exact orderly_genesis distinct
  | append_singleton done c ih =>
      rw [List.length_append, List.length_singleton] at last
      rw [sheetAfter_concat]
      exact orderly_next (ih (by omega)) c last

/-- The chain's next roster is the next sheet's, exactly if its body fits. -/
theorem chain_after (unforgeable : scheme.Unforgeable) (distinct : (members.map Member.subject).Nodup)
    (last : done.length + 1 < 2 ^ 64)
    (before : ∀ earlier c, done = earlier ++ [c] → chain scheme key nowMs members earlier =
      .ok ((sheetAfter scheme key nowMs members earlier).roster scheme key)) : chain scheme key nowMs members done =
      if ((sheetAfter scheme key nowMs members done).body scheme key).length < 2 ^ 32 then
        .ok ((sheetAfter scheme key nowMs members done).roster scheme key)
      else .error .garbled := by
  have rooted : (sheetAfter scheme key nowMs members done).Rooted scheme key :=
    (orderly_after distinct last).rooted
  rw [← verifyRoster_sheet unforgeable rooted]
  rcases List.eq_nil_or_concat done with rfl | ⟨earlier, c, rfl⟩
  · have certs : members.map (fun m => certFor scheme key m 1 nowMs) =
        (members.map fun m => certOf scheme key m 1 nowMs).map (signCert scheme key) :=
      List.map_map.symm
    simp only [chain, List.foldl_nil, genesis, certs]
    rfl
  · rw [List.concat_eq_append] at before ⊢
    rw [chain_concat, before earlier c rfl, sheetAfter_concat, ← change_sheet]

/-- While everything fits, the chain is the sheets' rosters. -/
theorem chain_of_fits (unforgeable : scheme.Unforgeable) (distinct : (members.map Member.subject).Nodup)
    (fits : Fits scheme key nowMs members changes) : chain scheme key nowMs members changes =
      .ok ((sheetAfter scheme key nowMs members changes).roster scheme key) := by
  induction changes using List.reverseRecOn with
  | nil =>
      rw [chain_after unforgeable distinct fits.1 fun _ _ h => by simp at h]
      exact if_pos (fits.2 [] (by simp))
  | append_singleton done c ih =>
      have short := fits.1
      rw [List.length_append, List.length_singleton] at short
      have earlier : Fits scheme key nowMs members done := by
        refine ⟨by omega, fun first mem => fits.2 first ?_⟩
        rw [List.mem_inits] at mem ⊢
        exact mem.trans (List.prefix_append done [c])
      rw [chain_after unforgeable distinct fits.1]
      · exact if_pos (fits.2 (done ++ [c]) (by simp))
      · intro earlier' c' same
        obtain ⟨rfl, _⟩ := List.append_inj' same rfl
        exact ih earlier

/-- The whole law of a chain: at every step the bytes verify, the roster says what the history amounts
to, and a step that does not name an id leaves its answer alone. -/
structure ChainLaw (scheme : Scheme) (key : scheme.SecretKey) (nowMs : UInt64) (members : List Member)
    (changes : List Change) : Prop where
  lawful : ∀ done, done <+: changes →
    ∃ r, chain scheme key nowMs members done = .ok r ∧ Lawful scheme key members done r
  others : ∀ done c, done ++ [c] <+: changes → ∀ r r', chain scheme key nowMs members done = .ok r →
    chain scheme key nowMs members (done ++ [c]) = .ok r' →
      ∀ id atMs, c.names id = false → r'.admits id atMs = r.admits id atMs

theorem ChainLaw.of_fits (unforgeable : scheme.Unforgeable) (distinct : (members.map Member.subject).Nodup)
    (fits : Fits scheme key nowMs members changes) : ChainLaw scheme key nowMs members changes := by
  have lawful : ∀ done, done <+: changes →
      ∃ r, chain scheme key nowMs members done = .ok r ∧ Lawful scheme key members done r := by
    intro done isPrefix
    have length := isPrefix.length_le
    have short := fits.1
    have earlier : Fits scheme key nowMs members done := by
      refine ⟨by omega, fun first mem => fits.2 first ?_⟩
      rw [List.mem_inits] at mem ⊢
      exact mem.trans isPrefix
    exact ⟨_, chain_of_fits unforgeable distinct earlier, (orderly_after distinct earlier.1).lawful⟩
  refine ⟨lawful, fun done c isPrefix r r' hr hr' id atMs unnamed => ?_⟩
  obtain ⟨before, hbefore, law⟩ := lawful done ((List.prefix_append done [c]).trans isPrefix)
  obtain ⟨after, hafter, law'⟩ := lawful (done ++ [c]) isPrefix
  rw [hbefore] at hr
  rw [hafter] at hr'
  cases hr
  cases hr'
  rw [Bool.eq_iff_iff, law.admits, law'.admits, lastNaming_concat, unnamed]
  rfl

/-- A law that holds has room for every body and every number of its history. -/
theorem ChainLaw.fits (unforgeable : scheme.Unforgeable) (distinct : (members.map Member.subject).Nodup)
    (law : ChainLaw scheme key nowMs members changes) : Fits scheme key nowMs members changes := by
  induction changes using List.reverseRecOn with
  | nil =>
      refine ⟨by decide, fun done mem => ?_⟩
      obtain rfl : done = [] := by simpa using mem
      obtain ⟨r, hr, _⟩ := law.lawful [] (List.prefix_refl [])
      rw [chain_after unforgeable distinct (by decide) fun _ _ h => by simp at h] at hr
      by_contra long
      rw [if_neg long] at hr
      cases hr
  | append_singleton done c ih =>
      have earlier : Fits scheme key nowMs members done :=
        ih ⟨fun first isPrefix => law.lawful first (isPrefix.trans (List.prefix_append done [c])),
          fun first c' isPrefix =>
            law.others first c' (isPrefix.trans (List.prefix_append done [c]))⟩
      obtain ⟨r, hr, lawful⟩ := law.lawful (done ++ [c]) (List.prefix_refl _)
      have short : (done ++ [c]).length + 1 < 2 ^ 64 := lawful.seq ▸ r.seq.toNat_lt
      refine ⟨short, fun first mem => ?_⟩
      rcases List.prefix_concat_iff.mp ((List.mem_inits _ _).mp mem) with rfl | before
      · rw [chain_after unforgeable distinct short] at hr
        · by_contra long
          rw [if_neg long] at hr
          cases hr
        · intro earlier' c' same
          obtain ⟨rfl, _⟩ := List.append_inj' same rfl
          exact chain_of_fits unforgeable distinct earlier
      · exact earlier.2 first ((List.mem_inits _ _).mpr before)

/-- **Roster chains.** From distinct members on, the law holds of a history exactly if every body it signs
fits the frame's 32-bit length and its numbers do not run out; and nothing is ever accepted both as a
certificate and as a roster. -/
theorem roster_chain_lawful (unforgeable : scheme.Unforgeable)
    (distinct : (members.map Member.subject).Nodup) (changes : List Change) :
    (ChainLaw scheme key nowMs members changes ↔ Fits scheme key nowMs members changes) ∧
      ∀ bytes root root' c r,
        ¬ (verifyCert scheme bytes root = .ok c ∧ verifyRoster scheme bytes root' = .ok r) :=
  ⟨⟨fun law => law.fits unforgeable distinct, fun fits => .of_fits unforgeable distinct fits⟩,
    fun bytes root root' c r => not_both bytes root root' c r⟩

end Rosters

/-! ### A body too long for its length -/

/-- Signatures by a key that is its own root: a sum over the key and the bytes signed. -/
def plainScheme : Scheme where
  SecretKey := Id
  «public» key := key
  sign key signed := Vector.ofFn fun i => key.toList.getD i 0 + signed.sum + signed.getD i 0
  verify root signed sig := sig == Vector.ofFn fun i => root.toList.getD i 0 + signed.sum + signed.getD i 0

theorem plainScheme_unforgeable : plainScheme.Unforgeable := by
  intro key signed sig
  exact beq_iff_eq

/-- A root key. -/
def rootKey : plainScheme.SecretKey := (Vector.replicate 32 7 : Id)

/-- The `n`th of many ids. -/
def idOf (n : Nat) : Id := ⟨(be32 n ++ List.replicate 28 0).toArray, by simp [be32]⟩

theorem idOf_injective {m n : Nat} (hm : m < 2 ^ 32) (hn : n < 2 ^ 32) (same : idOf m = idOf n) : m = n := by
  have bytes := congrArg (fun id : Id => fromBe32 (id.toList.take 4)) same
  have front : ∀ k, (idOf k).toList.take 4 = be32 k := by
    intro k
    simp [idOf, be32]
  simp only [front, fromBe32_be32] at bytes
  omega

/-- As many devices. -/
def crowd (n : Nat) : List Member :=
  (List.range n).map fun k => { subject := idOf k, kind := .device, sponsor := none }

theorem crowd_distinct {n : Nat} (few : n ≤ 2 ^ 32) : ((crowd n).map Member.subject).Nodup := by
  rw [crowd, List.map_map]
  refine List.Nodup.map_on ?_ List.nodup_range
  intro k hk l hl same
  rw [List.mem_range] at hk hl
  exact idOf_injective (by omega) (by omega) same

/-- Each certificate of a roster takes more than its signature's bytes. -/
theorem crowd_body (key : plainScheme.SecretKey) (nowMs : UInt64) (n : Nat) :
    64 * n ≤ ((sheetAfter plainScheme key nowMs (crowd n) []).body plainScheme key).length := by
  have each : ∀ bytes ∈ (Sheet.genesis plainScheme key nowMs (crowd n)).certs.map (signCert plainScheme key),
      64 ≤ (Coding.byte.list.put bytes).length := by
    intro bytes mem
    obtain ⟨c, _, rfl⟩ := List.mem_map.mp mem
    have whole : 1 * (signCert plainScheme key c).length ≤ _ :=
      Coding.length_le_list_put (c := Coding.byte) fun _ _ => Nat.le_refl 1
    have length := seal_length CERT_MAGIC (cert.put c) key
    rw [← signCert, SIG] at length
    omega
  have certs := Coding.length_le_list_put each
  have count : (Sheet.genesis plainScheme key nowMs (crowd n)).certs.length = n := by
    simp [Sheet.genesis, crowd]
  rw [List.length_map, count] at certs
  have whole := congrArg List.length (rosterBody_put ⟨plainScheme.public key, 1, nowMs,
      (Sheet.genesis plainScheme key nowMs (crowd n)).certs.map (signCert plainScheme key), []⟩)
  simp only [List.length_append] at whole
  have same : ((sheetAfter plainScheme key nowMs (crowd n) []).body plainScheme key).length = _ := whole
  omega

/-- 2^26 machines are more than a roster's length can say: the first roster is refused. -/
theorem crowded_genesis_refused :
    ((crowd (2 ^ 26)).map Member.subject).Nodup ∧
      ¬ ChainLaw plainScheme rootKey 0 (crowd (2 ^ 26)) [] := by
  refine ⟨crowd_distinct (by decide), fun law => ?_⟩
  have fits := law.fits plainScheme_unforgeable (crowd_distinct (by decide))
  have short := fits.2 [] (by simp)
  have long := crowd_body rootKey 0 (2 ^ 26)
  omega

/-- Two machines; a third comes, the second is revoked and admitted again. -/
theorem roster_chain_of_three :
    ChainLaw plainScheme rootKey 5 [⟨idOf 0, .device, none⟩, ⟨idOf 1, .device, none⟩]
      [.admitMember 6 ⟨idOf 2, .satellite, some (idOf 0)⟩, .revoke 7 (idOf 1), .refresh 8,
        .admitMember 9 ⟨idOf 1, .device, none⟩] :=
  (roster_chain_lawful plainScheme_unforgeable (by decide) _).1.mpr (by decide +kernel)

end Khor.Net
