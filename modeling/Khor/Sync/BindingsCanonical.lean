/-
Module: Khor.Sync.BindingsCanonical
Purpose: One descriptor has exactly one binding, one version exactly one encoding and one manifest exactly one text:
  what is read is written back byte for byte, and what is written is read back up to writers listed at zero, whatever
  order a version was built in.
Trusted boundary: none
Main exports: Descriptor.Same, Descriptor.fromManifest_reads, Manifest.decode_encode, Manifest.encode_decode,
  bindings_canonical
-/
import Khor.Sync.Bindings

namespace Khor.Bindings

open Khor.VersionNames

/-! ### Versions that hold the same -/

variable {v' : Counters} {d : Descriptor} {m : Manifest} {bytes : List UInt8}

theorem counted_congr {v : Counters} (same : ∀ w, v.held w = v'.held w) (counted : v.Counted) : v'.Counted := by
  intro e mem
  have found : v'.lookup e.1 = some e.2 := AList.mem_lookup_iff.mpr mem
  have held : v'.held e.1 = e.2 := by rw [Counters.held, found, Option.getD_some]
  rw [← held, ← same]
  exact counted.held e.1

/-- The entries above zero are the whole of a spelling. -/
theorem spelled_congr {v : Counters} (same : ∀ e, e ∈ v.live ↔ e ∈ v'.live) : spelled v = spelled v' := by
  have perm : v.live.Perm v'.live := (List.perm_ext_iff_of_nodup v.live_nodup v'.live_nodup).mpr same
  have order : sortByWriter v.live = sortByWriter v'.live := by
    apply strict_unique (sortByWriter_sorted v.live_keys_nodup) (sortByWriter_sorted v'.live_keys_nodup)
    intro e
    rw [(sortByWriter_perm _).mem_iff, (sortByWriter_perm _).mem_iff, same]
  rw [spelled, spelled, order, perm.length_eq]

/-- Neither the order a version was built in nor a writer at zero changes what is written or refused. -/
theorem writeVersion_congr {v : Counters} (same : ∀ w, v.held w = v'.held w) (out : List UInt8) :
    writeVersion out v = writeVersion out v' := by
  have spelling := spelled_congr (Counters.mem_live_congr same)
  by_cases counted : v.Counted
  · have counted' := counted_congr same counted
    by_cases fits : out.length + (spelled v).length ≤ MAX_METADATA_BYTES
    · rw [writeVersion_fits counted fits, writeVersion_fits counted' (spelling ▸ fits), spelling]
    · have long := Nat.lt_of_not_le fits
      rw [writeVersion_long counted long, writeVersion_long counted' (spelling ▸ long)]
  · have counted' : ¬ v'.Counted := fun h => counted (counted_congr (fun w => (same w).symm) h)
    rw [writeVersion_negative counted, writeVersion_negative counted']

/-- Two descriptors that differ at most in the order their versions were built in and in writers listed at zero. -/
structure Descriptor.Same (d d' : Descriptor) : Prop where
  document : d.document = d'.document
  epoch : d.epoch = d'.epoch
  encoding : d.encoding = d'.encoding
  base : ∀ w, d.base.held w = d'.base.held w
  target : ∀ w, d.target.held w = d'.target.held w

theorem Descriptor.bind_congr {d' : Descriptor} (same : d.Same d') (source recipient : Digest) (totalBytes : UInt64)
    (digest : Digest) : d.bind source recipient totalBytes digest = d'.bind source recipient totalBytes digest := by
  have front : d.front = d'.front := by rw [front, front, same.document, same.epoch, same.encoding]
  unfold Descriptor.bind
  rw [same.document, front, writeVersion_congr same.base]
  simp only [writeVersion_congr same.target]

/-! ### Descriptors -/

/-- A whole binding. -/
def Descriptor.spelling (d : Descriptor) : List UInt8 := d.front ++ spelled d.base ++ spelled d.target

theorem validate_ok : m.validate = .ok () ↔
      m.binding ≠ [] ∧ m.binding.length ≤ MAX_METADATA_BYTES - HEADER_BYTES ∧ m.totalBytes ≤ MAX_BLOB_BYTES := by
  unfold Manifest.validate
  constructor
  · intro is
    split at is
    · cases is
    · rename_i some
      split at is
      · cases is
      · rename_i short
        split at is
        · cases is
        · rename_i small
          exact ⟨some, Nat.le_of_not_lt short, UInt64.not_lt.mp small⟩
  · rintro ⟨some, short, small⟩
    rw [if_neg some, if_neg (Nat.not_lt.mpr short), if_neg (UInt64.not_lt.mpr small)]

/-- What `bind` makes, and of what. -/
theorem Descriptor.bind_ok {source recipient digest : Digest} {totalBytes : UInt64} :
    d.bind source recipient totalBytes digest = .ok m ↔
      asBytes d.document ≠ [] ∧ d.base.Counted ∧ d.target.Counted ∧
        m = ⟨source, recipient, d.spelling, totalBytes, digest⟩ ∧ m.validate = .ok () := by
  unfold Descriptor.bind
  constructor
  · intro run
    split at run
    · cases run
    · rename_i named
      split at run
      · cases run
      · obtain ⟨first, base, afterBase⟩ := Khor.bind_ok.mp run
        obtain ⟨whole, target, afterTarget⟩ := Khor.bind_ok.mp afterBase
        obtain ⟨_, valid, is⟩ := Khor.bind_ok.mp afterTarget
        obtain ⟨counted, -, rfl⟩ := writeVersion_ok.mp base
        obtain ⟨counted', -, rfl⟩ := writeVersion_ok.mp target
        cases is
        exact ⟨named, counted, counted', rfl, valid⟩
  · rintro ⟨named, counted, counted', rfl, valid⟩
    have short := (validate_ok.mp valid).2.1
    have parts : d.spelling.length = d.front.length + (spelled d.base).length + (spelled d.target).length := by
      rw [spelling, List.length_append, List.length_append]
    have name : (asBytes d.document).length ≤ d.front.length := by
      simp only [front, List.length_append]
      omega
    have room : MAX_METADATA_BYTES - HEADER_BYTES ≤ MAX_METADATA_BYTES := Nat.sub_le _ _
    have base := @writeVersion_fits d.front _ counted (by dsimp only at short; omega)
    have target := @writeVersion_fits (d.front ++ spelled d.base) _ counted'
      (by dsimp only at short; rw [List.length_append]; omega)
    rw [if_neg named, if_neg (by dsimp only at short; omega), bind_of_ok _ base, bind_of_ok _ target]
    exact bind_of_ok _ valid

theorem Descriptor.front_eq (d : Descriptor) (rest : List UInt8) :
    d.front ++ rest = DOC_MAGIC ++ (toBe 4 (asBytes d.document).length ++ asBytes d.document ++
      (toBe 4 d.epoch.toNat ++ (d.encoding.tag :: rest))) := by
  simp only [front, List.append_assoc, List.singleton_append]

/-- What is read as a descriptor is its binding, to the last byte. -/
theorem Descriptor.fromManifest_reads (run : fromManifest m = .ok d) :
    m.validate = .ok () ∧ asBytes d.document ≠ [] ∧ d.base.Counted ∧ d.target.Counted ∧ m.binding = d.spelling := by
  obtain ⟨_, valid, run⟩ := Khor.bind_ok.mp run
  obtain ⟨afterMagic, magic, run⟩ := Khor.bind_ok.mp run
  obtain ⟨⟨document, afterName⟩, name, run⟩ := Khor.bind_ok.mp run
  obtain ⟨⟨epoch, afterEpoch⟩, counted, run⟩ := Khor.bind_ok.mp run
  obtain ⟨⟨encoding, afterTag⟩, tag, run⟩ := Khor.bind_ok.mp run
  obtain ⟨⟨base, afterBase⟩, first, run⟩ := Khor.bind_ok.mp run
  obtain ⟨⟨target, afterTarget⟩, second, run⟩ := Khor.bind_ok.mp run
  obtain ⟨_, done, run⟩ := Khor.bind_ok.mp run
  obtain ⟨named, -, rest⟩ := readName_ok.mp name
  obtain ⟨rest', counts⟩ := readVersion_reads first
  obtain ⟨rest'', counts'⟩ := readVersion_reads second
  have whole := exhausted_ok.mp done
  have magic := readMagic_ok.mp magic
  have epochs := u32_ok.mp counted
  have tags := readEncoding_ok.mp tag
  cases run
  refine ⟨valid, named, counts, counts', ?_⟩
  dsimp only at *
  rw [magic, rest, epochs, tags, rest', rest'', whole, spelling, List.append_assoc _ (spelled base), front_eq,
    List.append_nil]

/-- A binding within its budget is read, as its descriptor up to writers at zero. -/
theorem Descriptor.fromManifest_writes (valid : m.validate = .ok ()) (named : asBytes d.document ≠ [])
    (counted : d.base.Counted) (counted' : d.target.Counted) (bound : m.binding = d.spelling) :
    ∃ d', fromManifest m = .ok d' ∧ d.Same d' := by
  have short := (validate_ok.mp valid).2.1
  have parts : m.binding.length = d.front.length + (spelled d.base).length + (spelled d.target).length := by
    rw [bound, spelling, List.length_append, List.length_append]
  have name : (asBytes d.document).length ≤ d.front.length := by
    simp only [front, List.length_append]
    omega
  rw [spelled_length, spelled_length] at parts
  simp only [MAX_METADATA_BYTES, HEADER_BYTES] at short
  have binding : m.binding = DOC_MAGIC ++ (toBe 4 (asBytes d.document).length ++ asBytes d.document ++
      (toBe 4 d.epoch.toNat ++ (d.encoding.tag :: (spelled d.base ++ (spelled d.target ++ []))))) := by
    rw [bound, spelling, List.append_assoc _ (spelled d.base), front_eq, List.append_nil]
  obtain ⟨base, first, counts, same⟩ := @readVersion_writes d.base (spelled d.target ++ []) (by omega)
  obtain ⟨target, second, counts', same'⟩ := @readVersion_writes d.target [] (by omega)
  refine ⟨⟨d.document, d.epoch, d.encoding, base, target⟩, ?_, rfl, rfl, rfl, ?_, ?_⟩
  · rw [fromManifest, bind_of_ok _ valid, bind_of_ok _ (readMagic_ok.mpr binding)]
    rw [bind_of_ok _ (readName_ok.mpr ⟨named, by omega, rfl⟩)]
    dsimp only
    rw [bind_of_ok _ (u32_ok.mpr rfl)]
    dsimp only
    rw [bind_of_ok _ (readEncoding_ok.mpr rfl)]
    dsimp only
    rw [bind_of_ok _ first]
    dsimp only
    rw [bind_of_ok _ second]
    rfl
  · exact Counters.held_congr counted counts fun e => (same e).symm
  · exact Counters.held_congr counted' counts' fun e => (same' e).symm

/-! ### Manifests -/

theorem Manifest.encode_length (m : Manifest) : m.encode.length = HEADER_BYTES + m.binding.length := by
  simp only [encode, List.length_append, toBe_length, m.source.len, m.recipient.len, m.digest.len, HEADER_BYTES,
    MANIFEST_MAGIC, List.length_cons, List.length_nil]

theorem Manifest.ext' {m' : Manifest} (source : m.source.bytes = m'.source.bytes)
    (recipient : m.recipient.bytes = m'.recipient.bytes) (binding : m.binding = m'.binding)
    (totalBytes : m.totalBytes = m'.totalBytes) (digest : m.digest.bytes = m'.digest.bytes) : m = m' := by
  cases m
  cases m'
  cases Digest.ext source
  cases Digest.ext recipient
  cases Digest.ext digest
  cases binding
  cases totalBytes
  rfl

/-- A valid manifest is read back from its text. -/
theorem Manifest.decode_encode (valid : m.validate = .ok ()) : decode m.encode = .ok m := by
  have short := (validate_ok.mp valid).2.1
  have whole : m.encode = MANIFEST_MAGIC ++ (m.source.bytes ++ (m.recipient.bytes ++ (toBe 8 m.totalBytes.toNat ++
      (toBe 8 m.binding.length ++ (m.digest.bytes ++ m.binding))))) := by
    simp only [encode, List.append_assoc]
  have magic : MANIFEST_MAGIC.length = 8 := rfl
  have source : (m.encode.drop 8).take 32 = m.source.bytes := by
    rw [whole]
    exact slice_of_parts magic m.source.len
  have recipient : (m.encode.drop 40).take 32 = m.recipient.bytes := by
    rw [whole, ← List.append_assoc]
    exact slice_of_parts (by rw [List.length_append, magic, m.source.len]) m.recipient.len
  have total : (m.encode.drop 72).take 8 = toBe 8 m.totalBytes.toNat := by
    rw [whole, ← List.append_assoc, ← List.append_assoc]
    exact slice_of_parts (by simp only [List.length_append, magic, m.source.len, m.recipient.len]) (toBe_length 8 _)
  have len : (m.encode.drop 80).take 8 = toBe 8 m.binding.length := by
    rw [whole, ← List.append_assoc, ← List.append_assoc, ← List.append_assoc]
    exact slice_of_parts (by simp only [List.length_append, magic, m.source.len, m.recipient.len, toBe_length])
      (toBe_length 8 _)
  have tail : m.encode.drop 88 = m.digest.bytes ++ m.binding := by
    rw [whole, ← List.append_assoc, ← List.append_assoc, ← List.append_assoc, ← List.append_assoc]
    exact List.drop_left' (by simp only [List.length_append, magic, m.source.len, m.recipient.len, toBe_length])
  have digest : (m.encode.drop 88).take 32 = m.digest.bytes := by
    rw [tail]
    exact List.take_left' m.digest.len
  have binding : m.encode.drop 120 = m.binding := by
    rw [show 120 = 88 + 32 from rfl, ← List.drop_drop, tail]
    exact List.drop_left' m.digest.len
  have framed : HEADER_BYTES ≤ m.encode.length ∧ m.encode.length ≤ MAX_METADATA_BYTES ∧
      m.encode.take 8 = MANIFEST_MAGIC := by
    rw [encode_length]
    refine ⟨Nat.le_add_right _ _, ?_, ?_⟩
    · simp only [MAX_METADATA_BYTES, HEADER_BYTES] at short ⊢
      omega
    · rw [whole]
      exact List.take_left' magic
  have count : fromBe ((m.encode.drop 80).take 8) = m.encode.length - HEADER_BYTES := by
    rw [len, encode_length, Nat.add_sub_cancel_left]
    apply fromBe_toBe
    simp only [MAX_METADATA_BYTES, HEADER_BYTES] at short
    omega
  rw [decode, dif_pos framed]
  dsimp only
  rw [if_neg (not_not_intro count)]
  have same : (⟨slice32 m.encode 8 (by have := framed.1; simp only [HEADER_BYTES] at this; omega),
      slice32 m.encode 40 (by have := framed.1; simp only [HEADER_BYTES] at this; omega), m.encode.drop 120,
      UInt64.ofNat (fromBe ((m.encode.drop 72).take 8)),
      slice32 m.encode 88 (by have := framed.1; simp only [HEADER_BYTES] at this; omega)⟩ : Manifest) = m := by
    apply Manifest.ext'
    · exact source
    · exact recipient
    · exact binding
    · dsimp only
      rw [total, fromBe_toBe 8 _ m.totalBytes.toNat_lt, UInt64.ofNat_toNat]
    · exact digest
  rw [same, bind_of_ok _ valid]

/-- And what is read is valid, and the text of what was read. -/
theorem Manifest.encode_decode (run : decode bytes = .ok m) : m.validate = .ok () ∧ m.encode = bytes := by
  rw [decode] at run
  split at run
  · rename_i framed
    have long := framed.1
    have magic := framed.2.2
    dsimp only at run
    split at run
    · cases run
    · rename_i counted
      obtain ⟨_, valid, is⟩ := Khor.bind_ok.mp run
      rw [not_not] at counted
      cases is
      refine ⟨valid, ?_⟩
      simp only [HEADER_BYTES] at long
      have size (start : Nat) (inside : start + 8 ≤ bytes.length) : ((bytes.drop start).take 8).length = 8 := by
        rw [List.length_take, List.length_drop]
        omega
      obtain ⟨small, total⟩ := fromBe_spelled (size 72 (by omega))
      obtain ⟨-, count⟩ := fromBe_spelled (size 80 (by omega))
      have rest : bytes.length - HEADER_BYTES = (bytes.drop 120).length := by
        rw [List.length_drop, HEADER_BYTES]
      rw [counted, rest] at count
      simp only [encode, slice32, UInt64.toNat_ofNat_of_lt' small, total, count, List.append_assoc]
      rw [slice_append bytes 88 32, slice_append bytes 80 8, slice_append bytes 72 8, slice_append bytes 40 32,
        slice_append bytes 8 32, ← magic, List.take_append_drop]
  · cases run

theorem Manifest.encode_inj {m' : Manifest} (valid : m.validate = .ok ()) (valid' : m'.validate = .ok ())
    (same : m.encode = m'.encode) : m = m' := by
  have read := decode_encode valid
  rw [same, decode_encode valid'] at read
  exact (Except.ok.inj read).symm

/-! ### Versions on their own -/

structure DocumentVersion.Same (v v' : DocumentVersion) : Prop where
  epoch : v.epoch = v'.epoch
  version : ∀ w, v.version.held w = v'.version.held w

/-- What is read as a version is written back byte for byte. -/
theorem DocumentVersion.encode_decode {v : DocumentVersion} (run : decode bytes = .ok v) : v.encode = .ok bytes := by
  rw [decode] at run
  split at run
  · cases run
  · rename_i short
    obtain ⟨afterMagic, magic, run⟩ := Khor.bind_ok.mp run
    obtain ⟨⟨epoch, afterEpoch⟩, epochs, run⟩ := Khor.bind_ok.mp run
    obtain ⟨⟨version, afterVersion⟩, versions, run⟩ := Khor.bind_ok.mp run
    obtain ⟨_, done, run⟩ := Khor.bind_ok.mp run
    obtain ⟨rest, counted⟩ := readVersion_reads versions
    have whole := exhausted_ok.mp done
    have magic := readMagic_ok.mp magic
    have epochs := u32_ok.mp epochs
    cases run
    dsimp only at *
    have spelling : bytes = VERSION_MAGIC ++ toBe 4 epoch.toNat ++ spelled version := by
      rw [magic, epochs, rest, whole, List.append_nil, List.append_assoc]
    rw [encode, spelling]
    apply writeVersion_fits counted
    rw [← List.length_append, ← spelling]
    exact Nat.le_of_not_lt short

/-- And what is written is read, up to writers at zero. -/
theorem DocumentVersion.decode_encode {v : DocumentVersion} (run : v.encode = .ok bytes) :
    ∃ v', decode bytes = .ok v' ∧ v.Same v' := by
  obtain ⟨counted, fits, rfl⟩ := writeVersion_ok.mp run
  have few : v.version.live.length < 2 ^ 32 := by
    rw [spelled_length, MAX_METADATA_BYTES] at fits
    omega
  obtain ⟨version, read, counted', same⟩ := readVersion_writes [] few
  refine ⟨⟨v.epoch, version⟩, ?_, rfl, Counters.held_congr counted counted' fun e => (same e).symm⟩
  have magic : readMagic VERSION_MAGIC "unsupported document version revision"
      (VERSION_MAGIC ++ toBe 4 v.epoch.toNat ++ spelled v.version) =
        .ok (toBe 4 v.epoch.toNat ++ (spelled v.version ++ [])) := by
    rw [readMagic_ok, List.append_nil, List.append_assoc]
  rw [decode, if_neg (by rw [List.length_append]; omega), bind_of_ok _ magic, bind_of_ok _ (u32_ok.mpr rfl)]
  dsimp only
  rw [bind_of_ok _ read]
  rfl

/-- One descriptor, one version and one manifest have one spelling each, and a spelling is read as nothing else; so two
manifests are named by the same bytes exactly when they agree in every field. -/
theorem bindings_canonical :
    (∀ m d, Descriptor.fromManifest m = .ok d →
      ∀ d' : Descriptor, d.Same d' → d'.bind m.source m.recipient m.totalBytes m.digest = .ok m) ∧
    (∀ (d : Descriptor) source recipient totalBytes digest m,
      d.bind source recipient totalBytes digest = .ok m →
        m.source = source ∧ m.recipient = recipient ∧ m.totalBytes = totalBytes ∧ m.digest = digest ∧
          ∃ d', Descriptor.fromManifest m = .ok d' ∧ d.Same d') ∧
    (∀ bytes v, DocumentVersion.decode bytes = .ok v →
      ∀ v' : DocumentVersion, v.Same v' → v'.encode = .ok bytes) ∧
    (∀ (v : DocumentVersion) bytes, v.encode = .ok bytes →
      ∃ v', DocumentVersion.decode bytes = .ok v' ∧ v.Same v') ∧
    (∀ m : Manifest, m.validate = .ok () → Manifest.decode m.encode = .ok m) ∧
    (∀ bytes m, Manifest.decode bytes = .ok m → m.validate = .ok () ∧ m.encode = bytes) ∧
    (∀ m m' : Manifest, m.validate = .ok () → m'.validate = .ok () → (m.encode = m'.encode ↔ m = m')) ∧
    (∀ m m' d d', Descriptor.fromManifest m = .ok d → Descriptor.fromManifest m' = .ok d' →
      (m.encode = m'.encode ↔
        d.Same d' ∧ m.source = m'.source ∧ m.recipient = m'.recipient ∧ m.totalBytes = m'.totalBytes ∧
          m.digest = m'.digest)) := by
  have bound (m : Manifest) (d : Descriptor) (read : Descriptor.fromManifest m = .ok d) :
      d.bind m.source m.recipient m.totalBytes m.digest = .ok m := by
    obtain ⟨valid, named, counted, counted', is⟩ := Descriptor.fromManifest_reads read
    refine Descriptor.bind_ok.mpr ⟨named, counted, counted', ?_, valid⟩
    rw [← is]
  refine ⟨?_, ?_, ?_, ?_, ?_, ?_, ?_, ?_⟩
  · intro m d read d' same
    rw [← Descriptor.bind_congr same, bound m d read]
  · intro d source recipient totalBytes digest m made
    obtain ⟨named, counted, counted', rfl, valid⟩ := Descriptor.bind_ok.mp made
    exact ⟨rfl, rfl, rfl, rfl, Descriptor.fromManifest_writes valid named counted counted' rfl⟩
  · intro bytes v read v' same
    have written := DocumentVersion.encode_decode read
    rw [DocumentVersion.encode] at written ⊢
    rw [← same.epoch, ← writeVersion_congr same.version, written]
  · exact fun v bytes written => DocumentVersion.decode_encode written
  · exact fun m valid => Manifest.decode_encode valid
  · exact fun bytes m read => Manifest.encode_decode read
  · exact fun m m' valid valid' => ⟨Manifest.encode_inj valid valid', congrArg Manifest.encode⟩
  · intro m m' d d' read read'
    have valid := (Descriptor.fromManifest_reads read).1
    have valid' := (Descriptor.fromManifest_reads read').1
    constructor
    · intro same
      obtain rfl := Manifest.encode_inj valid valid' same
      rw [read] at read'
      cases read'
      exact ⟨⟨rfl, rfl, rfl, fun _ => rfl, fun _ => rfl⟩, rfl, rfl, rfl, rfl⟩
    · rintro ⟨same, source, recipient, totalBytes, digest⟩
      have made := bound m d read
      rw [Descriptor.bind_congr same, source, recipient, totalBytes, digest, bound m' d' read'] at made
      rw [Except.ok.inj made]

/-- A document of one writer is bound and read back. -/
theorem bindings_canonical_note :
    ∃ m d', (⟨"note", 3, .updates, ∅, AList.singleton 7 2⟩ : Descriptor).bind ⟨List.replicate 32 1, rfl⟩
        ⟨List.replicate 32 2, rfl⟩ 5 ⟨List.replicate 32 3, rfl⟩ = .ok m ∧
      Descriptor.fromManifest m = .ok d' ∧ d'.target.held 7 = 2 := by
  have counted : Counters.Counted ∅ := by
    rintro e ⟨⟩
  have counted' : Counters.Counted (AList.singleton 7 2) := by
    intro e mem
    obtain rfl := List.mem_singleton.mp mem
    decide
  have valid : (⟨⟨List.replicate 32 1, rfl⟩, ⟨List.replicate 32 2, rfl⟩,
      (⟨"note", 3, .updates, ∅, AList.singleton 7 2⟩ : Descriptor).spelling, 5, ⟨List.replicate 32 3, rfl⟩⟩ :
        Manifest).validate = .ok () := by
    rw [validate_ok]
    simp only [Descriptor.spelling, List.length_append, spelled_length]
    refine ⟨?_, ?_, ?_⟩
    · simp [Descriptor.front, DOC_MAGIC]
    · decide
    · decide
  have made := Descriptor.bind_ok.mpr ⟨by decide, counted, counted', rfl, valid⟩
  obtain ⟨-, -, -, -, d', read, same⟩ := bindings_canonical.2.1 _ _ _ _ _ _ made
  exact ⟨_, d', made, read, (same.target 7).symm⟩

end Khor.Bindings
