/-
Module: Khor.Sync.Wire
Purpose: The live path: versions and deltas as text, and the two sides of one round. A version is
  spelled with the pile's epoch in front; a delta is flushed before it leaves; what comes in is merged,
  flushed, and only then remembered. Each function has one lemma that says everything it can do.
Trusted boundary: loro's binary encodings and the document's item count, as a `Codec`
Main exports: Codec, Codec.Lawful, WireError, answer_cases, absorb_cases
-/
import Khor.Lib.Base64
import Khor.Sync.Store

namespace Khor.Sync

/-- What the document library supplies: versions and operations as bytes and back, and how many items
a document holds. -/
structure Codec where
  encodeVersion : SyncVersion → List UInt8
  decodeVersion : List UInt8 → Option SyncVersion
  encodeOps : List SyncOp → List UInt8
  decodeOps : List UInt8 → Bytes
  items : List SyncOp → Nat

/-- The encodings keep what they encode, and none is empty: both carry a header. -/
structure Codec.Lawful (codec : Codec) : Prop where
  version : ∀ v, ∃ v', codec.decodeVersion (codec.encodeVersion v) = some v' ∧ ∀ w, v'.get w = v.get w
  versionHeader : ∀ v, codec.encodeVersion v ≠ []
  ops : ∀ ops, ∃ ops', codec.decodeOps (codec.encodeOps ops) = some ops' ∧ ∀ o, o ∈ ops' ↔ o ∈ ops
  opsHeader : ∀ ops, codec.encodeOps ops ≠ []

/-- Raw bytes one sync may carry per direction. -/
def MAX_BYTES : Nat := 4 * 1024 * 1024

/-- What the live path refuses with. `file` is the text of a file step or an import that failed. -/
inductive WireError where
  | versionNotBase64
  | versionUndecodable
  | pileOtherEpoch (name : Text) (theirs mine : Nat)
  | deltaNotBase64
  | inboundTooBig (kib cap : Nat)
  | outboundTooBig (kib cap : Nat)
  | file (why : String)

/-- Split at the first colon. -/
def splitOnce : Text → Option (Text × Text)
  | [] => none
  | ':' :: rest => some ([], rest)
  | c :: rest => (splitOnce rest).map fun (front, back) => (c :: front, back)

/-- The pile's epoch rides in front of a version, nothing in front for epoch 0. -/
def spell (epoch : Nat) (bytes : List UInt8) : Text :=
  match epoch with
  | 0 => Base64.encode bytes
  | e => decimal e ++ ':' :: Base64.encode bytes

/-- The base64 a spelled string carries, refused when it was spelled in another epoch. -/
def unspell (store : BlockStore) (s : Text) : Except WireError Text :=
  let parsed : Except WireError (Nat × Text) :=
    match splitOnce s with
    | some (e, rest) =>
        match parseBounded (2 ^ 32) e with
        | some epoch => .ok (epoch, rest)
        | none => .error .versionNotBase64
    | none => .ok (0, s)
  match parsed with
  | .error e => .error e
  | .ok (epoch, b64) =>
      if epoch ≠ store.epoch then .error (.pileOtherEpoch store.dir.name epoch store.epoch)
      else .ok b64

/-- Whether an error is the refusal `unspell` makes. -/
def otherEpoch : WireError → Bool
  | .pileOtherEpoch _ _ _ => true
  | _ => false

/-- Reply fields. -/
structure Reply where
  version : Text
  changes : Text
  items : Nat

/-- One round's outcome. -/
structure Round where
  pushed : Nat
  pulled : Nat
  items : Nat

/-- The two strings one round sends. -/
structure Outgoing where
  «have» : Text
  changes : Text

/-- Sync state toward one far side: the version from the last reply, empty for never met. -/
structure Peer where
  their : Text

/-- Decoded size of a base64 string, without decoding. -/
def rawLen (b64 : Text) : Nat := b64.length / 4 * 3

section Live

variable (codec : Codec)

/-- `version_b64`: where I am. -/
def versionB64 (store : BlockStore) (doc : LoroDoc) : Text :=
  spell store.epoch (codec.encodeVersion doc.version)

/-- `decode_version`: refused across epochs; empty means from the beginning. -/
def decodeVersion (store : BlockStore) (s : Text) : Except WireError SyncVersion :=
  if s = [] then .ok ∅
  else
    match unspell store s with
    | .error e => .error e
    | .ok b64 =>
        match Base64.decode b64 with
        | none => .error .versionNotBase64
        | some bytes =>
            match codec.decodeVersion bytes with
            | none => .error .versionUndecodable
            | some vv => .ok vv

/-- `changes_since_b64`: what I have beyond the far side's version, flushed first; empty when their
version includes mine. -/
def changesSinceB64 (io : Io) (store : BlockStore) (doc : LoroDoc) (theirs : Text) :
    Except WireError Text × BlockStore :=
  match decodeVersion codec store theirs with
  | .error e => (.error e, store)
  | .ok vv =>
      match store.flush io doc with
      | (.error why, store) => (.error (.file why), store)
      | (.ok _, store) =>
          if vv.Includes doc.version then (.ok [], store)
          else
            let bytes := codec.encodeOps ((doc.changesSince vv).getD [])
            if MAX_BYTES < bytes.length then
              (.error (.outboundTooBig (bytes.length / 1024) (MAX_BYTES / 1024)), store)
            else (.ok (Base64.encode bytes), store)

/-- `merge_b64_report`: merge what the far side sent. Empty is nothing for me. -/
def mergeB64Report (doc : LoroDoc) (changes : Text) : Except WireError (MergeReport × LoroDoc) :=
  if changes = [] then .ok ({ applied := [], pending := [] }, doc)
  else
    match Base64.decode changes with
    | none => .error .deltaNotBase64
    | some bytes =>
        if MAX_BYTES < bytes.length then
          .error (.inboundTooBig (bytes.length / 1024) (MAX_BYTES / 1024))
        else
          match doc.mergeReport (codec.decodeOps bytes) with
          | .error why => .error (.file why)
          | .ok merged => .ok merged

/-- `Peer::outgoing`: what to send this round. Pull-only until their version is known. -/
def Peer.outgoing (io : Io) (peer : Peer) (store : BlockStore) (doc : LoroDoc) :
    Except WireError Outgoing × BlockStore :=
  let mine := versionB64 codec store doc
  if peer.their = [] then (.ok { «have» := mine, changes := [] }, store)
  else
    match changesSinceB64 codec io store doc peer.their with
    | (.error e, store) => (.error e, store)
    | (.ok changes, store) => (.ok { «have» := mine, changes := changes }, store)

/-- `Peer::absorb`: take in a reply: merge, flush, and record their version last. -/
def Peer.absorb (io : Io) (peer : Peer) (store : BlockStore) (doc : LoroDoc) (sent : Outgoing)
    (reply : Reply) : Except WireError Round × Peer × LoroDoc × BlockStore :=
  match decodeVersion codec store reply.version with
  | .error e => (.error e, peer, doc, store)
  | .ok _ =>
      match mergeB64Report codec doc reply.changes with
      | .error e => (.error e, peer, doc, store)
      | .ok (report, merged) =>
          match store.keepMerged io doc.version merged report with
          | (.error why, store) => (.error (.file why), peer, merged, store)
          | (.ok _, store) =>
              (.ok
                { pushed := rawLen sent.changes
                  pulled := rawLen reply.changes
                  items := codec.items merged.applied },
                { their := reply.version }, merged, store)

/-- `answer`: compute what the caller lacks first, then merge what they sent, even when what they lack
cannot be sent. `first` and `second` are the outside's answers to the two flushes. -/
def answer (first second : Io) (store : BlockStore) (doc : LoroDoc) («have» changes : Text) :
    Except WireError Reply × LoroDoc × BlockStore :=
  match decodeVersion codec store «have» with
  | .error e => (.error e, doc, store)
  | .ok _ =>
      let (out, store) := changesSinceB64 codec first store doc «have»
      match mergeB64Report codec doc changes with
      | .error e => (.error e, doc, store)
      | .ok (report, merged) =>
          match store.keepMerged second doc.version merged report with
          | (.error why, store) => (.error (.file why), merged, store)
          | (.ok _, store) =>
              match out with
              | .error e => (.error e, merged, store)
              | .ok out =>
                  (.ok
                    { version := versionB64 codec store merged
                      changes := out
                      items := codec.items merged.applied },
                    merged, store)

/-- `Peer::round`: outgoing, send, absorb. -/
def Peer.round (first second : Io) (peer : Peer) (store : BlockStore) (doc : LoroDoc)
    (send : Text → Text → Except WireError Reply) :
    Except WireError Round × Peer × LoroDoc × BlockStore :=
  match peer.outgoing codec first store doc with
  | (.error e, store) => (.error e, peer, doc, store)
  | (.ok out, store) =>
      match send out.have out.changes with
      | .error e => (.error e, peer, doc, store)
      | .ok reply => peer.absorb codec second store doc out reply

/-- The operations a merge of the delta would import: none when it is empty, over the cap, or no delta
at all. -/
def incoming (changes : Text) : Option (List SyncOp) :=
  match Base64.decode changes with
  | some bytes =>
      if changes = [] ∨ MAX_BYTES < bytes.length then none else codec.decodeOps bytes
  | none => none

end Live

/-! ### Spelling -/

variable {s : Text} {store : BlockStore}

theorem splitOnce_of_notMem (h : ':' ∉ s) : splitOnce s = none := by
  induction s with
  | nil => rfl
  | cons c rest ih =>
      rw [List.mem_cons, not_or] at h
      rw [splitOnce, ih h.2, Option.map_none]
      exact fun same => h.1 same.symm

theorem splitOnce_append {front : Text} (h : ':' ∉ front) (back : Text) :
    splitOnce (front ++ ':' :: back) = some (front, back) := by
  induction front with
  | nil => rfl
  | cons c rest ih =>
      rw [List.mem_cons, not_or] at h
      rw [List.cons_append, splitOnce, ih h.2, Option.map_some]
      exact fun same => h.1 same.symm

theorem eq_append_of_splitOnce {front back : Text} (h : splitOnce s = some (front, back)) :
    s = front ++ ':' :: back ∧ ':' ∉ front := by
  induction s generalizing front with
  | nil => cases h
  | cons c rest ih =>
      by_cases colon : c = ':'
      · subst colon
        cases h
        exact ⟨rfl, List.not_mem_nil⟩
      · rw [splitOnce] at h
        · obtain ⟨⟨front', back'⟩, hsplit, same⟩ := Option.map_eq_some_iff.mp h
          cases same
          obtain ⟨rfl, notMem⟩ := ih hsplit
          exact ⟨rfl, fun mem => (List.mem_cons.mp mem).elim (fun e => colon e.symm) notMem⟩
        · exact colon

theorem notMem_of_splitOnce (h : splitOnce s = none) : ':' ∉ s := by
  induction s with
  | nil => exact List.not_mem_nil
  | cons c rest ih =>
      by_cases colon : c = ':'
      · subst colon
        cases h
      · rw [splitOnce] at h
        · rw [Option.map_eq_none_iff] at h
          exact fun mem => (List.mem_cons.mp mem).elim (fun e => colon e.symm) (ih h)
        · exact colon

theorem colon_notMem_encode (bytes : List UInt8) : ':' ∉ Base64.encode bytes := by
  intro mem
  rcases Base64.mem_encode mem with symbol | pad
  · exact absurd symbol (by decide)
  · cases pad

theorem colon_notMem_decimal (n : Nat) : ':' ∉ decimal n := by
  intro mem
  have digit := ((decimal_spec n).2.1 _ mem).1
  cases digit

/-- What one copy spells, a copy of the same epoch reads. -/
theorem unspell_spell {epoch : Nat} (fits : epoch < 2 ^ 32) (same : epoch = store.epoch) (bytes : List UInt8) :
    unspell store (spell epoch bytes) = .ok (Base64.encode bytes) := by
  cases epoch with
  | zero =>
      rw [unspell, spell, splitOnce_of_notMem (colon_notMem_encode bytes)]
      exact if_neg (not_not.mpr same)
  | succ e =>
      have front : spell (e + 1) bytes = decimal (e + 1) ++ ':' :: Base64.encode bytes := rfl
      rw [unspell, front, splitOnce_append (colon_notMem_decimal (e + 1))]
      simp only [parseBounded_decimal fits]
      exact if_neg (not_not.mpr same)

theorem spell_ne_nil {epoch : Nat} {bytes : List UInt8} (h : bytes ≠ []) : spell epoch bytes ≠ [] := by
  unfold spell
  split
  · exact fun empty => h (Base64.encode_eq_nil.mp empty)
  · simp

theorem readEpoch_lt (dir : Dir) : readEpoch dir < 2 ^ 32 := by
  unfold readEpoch
  split
  · rename_i content _
    cases h : parseBounded (2 ^ 32) (trim content) with
    | none => exact Nat.two_pow_pos 32
    | some n =>
        unfold parseBounded at h
        simp only at h
        split at h
        · rename_i fits
          cases h
          exact fits.2.2
        · cases h
  · exact Nat.two_pow_pos 32

theorem BlockStore.InEpoch.lt (h : store.InEpoch) : store.epoch < 2 ^ 32 := by
  rcases h with ⟨_, named⟩ | ⟨_, epoch, _⟩
  · rw [← named]
    exact readEpoch_lt store.dir
  · rw [epoch]
    decide

/-! ### What each step can do -/

section Cases

variable {codec : Codec}

/-- A version told by a copy is read back, entry by entry, by every copy of its epoch. -/
theorem decodeVersion_versionB64 (lawful : codec.Lawful) {far : BlockStore}
    (fits : far.epoch < 2 ^ 32) (doc : LoroDoc) :
    ∃ vv, (∀ store : BlockStore, far.epoch = store.epoch →
        decodeVersion codec store (versionB64 codec far doc) = .ok vv) ∧
      ∀ w, vv.upTo w = reach doc.applied w := by
  obtain ⟨vv, hdecode, hget⟩ := lawful.version doc.version
  refine ⟨vv, fun store same => ?_, fun w => ?_⟩
  · have told : versionB64 codec far doc ≠ [] := spell_ne_nil (lawful.versionHeader _)
    rw [decodeVersion, if_neg told]
    simp only [versionB64, unspell_spell fits same, Base64.decode_encode, hdecode]
  · rw [← doc.upTo_version w, VersionVector.upTo, hget, VersionVector.upTo]

theorem versionB64_ne_nil (lawful : codec.Lawful) (store : BlockStore) (doc : LoroDoc) :
    versionB64 codec store doc ≠ [] :=
  spell_ne_nil (lawful.versionHeader _)

/-- A delta within the cap carries what was put into it. -/
theorem incoming_encode (lawful : codec.Lawful) {ops : List SyncOp}
    (fits : (codec.encodeOps ops).length ≤ MAX_BYTES) :
    Base64.encode (codec.encodeOps ops) ≠ [] ∧
      ∃ ops', incoming codec (Base64.encode (codec.encodeOps ops)) = some ops' ∧
        ∀ o, o ∈ ops' ↔ o ∈ ops := by
  have told : Base64.encode (codec.encodeOps ops) ≠ [] :=
    fun empty => lawful.opsHeader ops (Base64.encode_eq_nil.mp empty)
  obtain ⟨ops', hdecode, hmem⟩ := lawful.ops ops
  refine ⟨told, ops', ?_, hmem⟩
  rw [incoming, Base64.decode_encode]
  simp only [told, Nat.not_lt.mpr fits, or_self, if_false, hdecode]

/-- A merge that would import something does. -/
theorem mergeB64Report_of_incoming {doc : LoroDoc} {changes : Text} {ops : List SyncOp}
    (h : incoming codec changes = some ops) :
    changes ≠ [] ∧ mergeB64Report codec doc changes = .ok (doc.reportOf ops, doc.takeOps ops) := by
  unfold incoming at h
  cases hdecode : Base64.decode changes with
  | none => simp [hdecode] at h
  | some bytes =>
      simp only [hdecode] at h
      split at h
      · cases h
      · rename_i told
        rw [not_or] at told
        refine ⟨told.1, ?_⟩
        rw [mergeB64Report, if_neg told.1, hdecode]
        simp only [told.2, if_false, h, LoroDoc.mergeReport]

variable {doc doc' : LoroDoc} {changes : Text} {io : Io} {store' : BlockStore}

/-- A merge leaves the document alone or imports exactly what the delta carries. -/
theorem mergeB64Report_cases {report : MergeReport} (h : mergeB64Report codec doc changes = .ok (report, doc')) :
    (changes = [] ∧ report = { applied := [], pending := [] } ∧ doc' = doc) ∨
      ∃ ops, incoming codec changes = some ops ∧ report = doc.reportOf ops ∧
        doc' = doc.takeOps ops := by
  unfold mergeB64Report at h
  split at h
  · cases h
    exact Or.inl ⟨‹_›, rfl, rfl⟩
  · rename_i told
    right
    cases hdecode : Base64.decode changes with
    | none => simp [hdecode] at h
    | some bytes =>
        simp only [hdecode] at h
        split at h
        · cases h
        · rename_i fits
          cases hmerge : doc.mergeReport (codec.decodeOps bytes) with
          | error why => simp [hmerge] at h
          | ok merged =>
              rw [hmerge] at h
              cases h
              obtain ⟨ops, hops, rfl, rfl⟩ := LoroDoc.mergeReport_cases hmerge
              refine ⟨ops, ?_, rfl, rfl⟩
              rw [incoming, hdecode]
              simp only [told, fits, or_self, if_false, hops]

/-- Everything computing a delta can do: refuse the version; flush, and then send nothing because
nothing is new, send what the version lacks, or find it too big. -/
theorem changesSinceB64_cases {theirs : Text} {r : Except WireError Text}
    (h : changesSinceB64 codec io store doc theirs = (r, store')) :
    (∃ e, decodeVersion codec store theirs = .error e ∧ r = .error e ∧ store' = store) ∨
      ∃ vv flushed, decodeVersion codec store theirs = .ok vv ∧
        store.flush io doc = (flushed, store') ∧
        ((∃ e, r = .error e) ∨ ∃ name, flushed = .ok name ∧ ((vv.Includes doc.version ∧ r = .ok []) ∨
              (¬ vv.Includes doc.version ∧ (codec.encodeOps (since doc.applied vv)).length ≤ MAX_BYTES ∧
                r = .ok (Base64.encode (codec.encodeOps (since doc.applied vv)))))) := by
  unfold changesSinceB64 at h
  cases hdecode : decodeVersion codec store theirs with
  | error e =>
      rw [hdecode] at h
      cases h
      exact Or.inl ⟨e, rfl, rfl, rfl⟩
  | ok vv =>
      rw [hdecode] at h
      right
      cases hflush : store.flush io doc with
      | mk flushed s₁ =>
          simp only [hflush] at h
          cases flushed with
          | error why =>
              cases h
              exact ⟨vv, _, rfl, rfl, Or.inl ⟨_, rfl⟩⟩
          | ok name =>
              simp only at h
              split at h
              · rename_i includes
                cases h
                exact ⟨vv, _, rfl, rfl, Or.inr ⟨name, rfl, Or.inl ⟨includes, rfl⟩⟩⟩
              · rename_i lacks
                split at h
                · cases h
                  exact ⟨vv, _, rfl, rfl, Or.inl ⟨_, rfl⟩⟩
                · rename_i fits
                  cases h
                  exact ⟨vv, _, rfl, rfl, Or.inr ⟨name, rfl, Or.inr ⟨lacks, Nat.le_of_not_lt fits, rfl⟩⟩⟩

/-- A delta computed leaves the store as it was or as its flush left it. -/
theorem changesSinceB64_store (codec : Codec) (io : Io) (store : BlockStore) (doc : LoroDoc) (theirs : Text) :
    (changesSinceB64 codec io store doc theirs).2 = store ∨
      (changesSinceB64 codec io store doc theirs).2 = (store.flush io doc).2 := by
  rcases changesSinceB64_cases (Prod.eta _).symm with ⟨_, _, _, same⟩ | ⟨_, _, _, hflush, _⟩
  · exact Or.inl same
  · exact Or.inr (by rw [hflush])

/-- A delta carries only what the document holds. -/
theorem mem_of_changesSinceB64 (lawful : codec.Lawful) {theirs : Text}
    (h : changesSinceB64 codec io store doc theirs = (.ok changes, store')) {ops : List SyncOp}
    (hops : incoming codec changes = some ops) {o : SyncOp} (ho : o ∈ ops) : o ∈ doc.applied := by
  rcases changesSinceB64_cases h with ⟨_, _, hr, _⟩ | ⟨vv, _, _, _, ⟨_, hr⟩ | ⟨_, _, ⟨_, hr⟩ | ⟨_, fits, hr⟩⟩⟩
  · cases hr
  · cases hr
  · cases hr
    cases hops
  · cases hr
    obtain ⟨_, ops', hops', hmem⟩ := incoming_encode lawful fits
    rw [hops] at hops'
    cases hops'
    exact (mem_since.mp ((hmem o).mp ho)).1

/-- Everything outgoing can do. -/
theorem outgoing_cases {peer : Peer} {r : Except WireError Outgoing}
    (h : peer.outgoing codec io store doc = (r, store')) : (peer.their = [] ∧ store' = store ∧
        r = .ok { «have» := versionB64 codec store doc, changes := [] }) ∨
      (peer.their ≠ [] ∧ ∃ out, changesSinceB64 codec io store doc peer.their = (out, store') ∧
        ((∃ e, r = .error e) ∨ ∃ changes, out = .ok changes ∧
            r = .ok { «have» := versionB64 codec store doc, changes := changes })) := by
  unfold Peer.outgoing at h
  simp only at h
  split at h
  · rename_i never
    cases h
    exact Or.inl ⟨never, rfl, rfl⟩
  · rename_i met
    right
    cases hout : changesSinceB64 codec io store doc peer.their with
    | mk out s₁ =>
        rw [hout] at h
        cases out with
        | error e =>
            cases h
            exact ⟨met, _, rfl, Or.inl ⟨e, rfl⟩⟩
        | ok changes =>
            cases h
            exact ⟨met, _, rfl, Or.inr ⟨changes, rfl, rfl⟩⟩

/-- Everything taking in a reply can do. Their version is remembered only after the flush. -/
theorem absorb_cases {peer peer' : Peer} {sent : Outgoing} {reply : Reply} {r : Except WireError Round}
    (h : peer.absorb codec io store doc sent reply = (r, peer', doc', store')) :
    (∃ e, r = .error e ∧ peer' = peer ∧ doc' = doc ∧ store' = store) ∨
      ∃ vv report flushed, decodeVersion codec store reply.version = .ok vv ∧
        mergeB64Report codec doc reply.changes = .ok (report, doc') ∧
        store.keepMerged io doc.version doc' report = (flushed, store') ∧
        ((∃ e, r = .error e ∧ peer' = peer) ∨ ∃ name, flushed = .ok name ∧ peer' = { their := reply.version } ∧
            r = .ok
              { pushed := rawLen sent.changes, pulled := rawLen reply.changes,
                items := codec.items doc'.applied }) := by
  unfold Peer.absorb at h
  cases hdecode : decodeVersion codec store reply.version with
  | error e =>
      rw [hdecode] at h
      cases h
      exact Or.inl ⟨e, rfl, rfl, rfl, rfl⟩
  | ok vv =>
      simp only [hdecode] at h
      cases hmerge : mergeB64Report codec doc reply.changes with
      | error e =>
          rw [hmerge] at h
          cases h
          exact Or.inl ⟨e, rfl, rfl, rfl, rfl⟩
      | ok pair =>
          obtain ⟨report, merged⟩ := pair
          simp only [hmerge] at h
          right
          cases hkeep : store.keepMerged io doc.version merged report with
          | mk flushed s₁ =>
              rw [hkeep] at h
              cases flushed with
              | error why =>
                  cases h
                  exact ⟨vv, report, _, rfl, rfl, hkeep, Or.inl ⟨_, rfl, rfl⟩⟩
              | ok name =>
                  cases h
                  exact ⟨vv, report, _, rfl, rfl, hkeep, Or.inr ⟨name, rfl, rfl, rfl⟩⟩

/-- Everything answering can do: refuse the version or the delta, or merge, and then answer if both
flushes and the delta went well. -/
theorem answer_cases {first second : Io} {«have» : Text} {r : Except WireError Reply}
    (h : answer codec first second store doc «have» changes = (r, doc', store')) :
    (∃ e, decodeVersion codec store «have» = .error e ∧ r = .error e ∧ doc' = doc ∧
        store' = store) ∨
      ∃ vv out s₁, decodeVersion codec store «have» = .ok vv ∧
        changesSinceB64 codec first store doc «have» = (out, s₁) ∧
        ((∃ e, mergeB64Report codec doc changes = .error e ∧ r = .error e ∧ doc' = doc ∧ store' = s₁) ∨
          ∃ report flushed, mergeB64Report codec doc changes = .ok (report, doc') ∧
            s₁.keepMerged second doc.version doc' report = (flushed, store') ∧ ((∃ e, r = .error e) ∨
              ∃ name changes', flushed = .ok name ∧ out = .ok changes' ∧ r = .ok
                  { version := versionB64 codec store' doc', changes := changes',
                    items := codec.items doc'.applied })) := by
  unfold answer at h
  cases hdecode : decodeVersion codec store «have» with
  | error e =>
      rw [hdecode] at h
      cases h
      exact Or.inl ⟨e, rfl, rfl, rfl, rfl⟩
  | ok vv =>
      simp only [hdecode] at h
      right
      cases hout : changesSinceB64 codec first store doc «have» with
      | mk out s₁ =>
          simp only [hout] at h
          refine ⟨vv, out, s₁, rfl, rfl, ?_⟩
          cases hmerge : mergeB64Report codec doc changes with
          | error e =>
              rw [hmerge] at h
              cases h
              exact Or.inl ⟨e, rfl, rfl, rfl, rfl⟩
          | ok pair =>
              obtain ⟨report, merged⟩ := pair
              simp only [hmerge] at h
              right
              cases hkeep : s₁.keepMerged second doc.version merged report with
              | mk flushed s₂ =>
                  rw [hkeep] at h
                  cases flushed with
                  | error why =>
                      cases h
                      exact ⟨report, _, rfl, hkeep, Or.inl ⟨_, rfl⟩⟩
                  | ok name =>
                      cases out with
                      | error e =>
                          cases h
                          exact ⟨report, _, rfl, hkeep, Or.inl ⟨e, rfl⟩⟩
                      | ok changes' =>
                          cases h
                          exact ⟨report, _, rfl, hkeep, Or.inr ⟨name, changes', rfl, rfl, rfl⟩⟩

end Cases

end Khor.Sync
