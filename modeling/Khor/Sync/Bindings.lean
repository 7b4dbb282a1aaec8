/-
Module: Khor.Sync.Bindings
Purpose: What a transfer of one document is bound to, as bytes: the descriptor inside a manifest's binding, a document
  version on its own, and the manifest itself. Writer and reader are told byte by byte: what the reader takes is what
  the writer spells, and nothing else is read.
Trusted boundary: loro's version vector as a map of writers to signed counters, in whatever order it hands them out
Main exports: Error, Digest, Manifest, Manifest.validate, Manifest.encode
-/
import Khor.Lib.Fallible
import Khor.Sync.VersionNames

namespace Khor.Bindings

open Khor.VersionNames

inductive Error where
  | resourceLimit (why : String)
  | invalidManifest (why : String)
  | invalidStage (why : String)

def MAX_METADATA_BYTES : Nat := 64 * 1024
def MAX_BLOB_BYTES : UInt64 := 64 * 1024 * 1024
def HEADER_BYTES : Nat := 8 + 32 + 32 + 8 + 8 + 32
def VERSION_ENTRY_BYTES : Nat := 12

/-- `b"khor-doc-v1\0"`. -/
def DOC_MAGIC : List UInt8 := [107, 104, 111, 114, 45, 100, 111, 99, 45, 118, 49, 0]

/-- `b"khor-version-v1\0"`. -/
def VERSION_MAGIC : List UInt8 := [107, 104, 111, 114, 45, 118, 101, 114, 115, 105, 111, 110, 45, 118, 49, 0]

/-- `b"khor-x01"`. -/
def MANIFEST_MAGIC : List UInt8 := [107, 104, 111, 114, 45, 120, 48, 49]

/-- An identity or a digest: 32 bytes. -/
structure Digest where
  bytes : List UInt8
  len : bytes.length = 32

theorem Digest.ext {a b : Digest} (same : a.bytes = b.bytes) : a = b := by
  cases a
  cases b
  cases same
  rfl

structure Manifest where
  source : Digest
  recipient : Digest
  binding : List UInt8
  totalBytes : UInt64
  digest : Digest

def Manifest.validate (m : Manifest) : Except Error Unit :=
  if m.binding = [] then .error (.invalidManifest "empty purpose binding")
  else if MAX_METADATA_BYTES - HEADER_BYTES < m.binding.length then
    .error (.resourceLimit "manifest metadata exceeds 64 KiB")
  else if MAX_BLOB_BYTES < m.totalBytes then .error (.resourceLimit "blob exceeds 64 MiB")
  else .ok ()

def Manifest.encode (m : Manifest) : List UInt8 :=
  MANIFEST_MAGIC ++ m.source.bytes ++ m.recipient.bytes ++ toBe 8 m.totalBytes.toNat ++ toBe 8 m.binding.length ++
    m.digest.bytes ++ m.binding

/-- `bytes[at..at + 32]`. -/
def slice32 (bytes : List UInt8) (start : Nat) (inside : start + 32 ≤ bytes.length) : Digest where
  bytes := (bytes.drop start).take 32
  len := by
    rw [List.length_take, List.length_drop]
    omega

def Manifest.decode (bytes : List UInt8) : Except Error Manifest :=
  if framed : HEADER_BYTES ≤ bytes.length ∧ bytes.length ≤ MAX_METADATA_BYTES ∧ bytes.take 8 = MANIFEST_MAGIC then
    have long : 120 ≤ bytes.length := framed.1
    let bindingLen := fromBe ((bytes.drop 80).take 8)
    if bindingLen ≠ bytes.length - HEADER_BYTES then .error (.invalidStage "manifest binding length")
    else
      let manifest : Manifest :=
        { source := slice32 bytes 8 (by omega)
          recipient := slice32 bytes 40 (by omega)
          totalBytes := UInt64.ofNat (fromBe ((bytes.drop 72).take 8))
          digest := slice32 bytes 88 (by omega)
          binding := bytes.drop 120 }
      manifest.validate >>= fun _ => .ok manifest
  else .error (.invalidStage "manifest framing")

inductive Encoding where
  | updates
  | snapshot

def Encoding.tag : Encoding → UInt8
  | .updates => 0
  | .snapshot => 1

structure Descriptor where
  document : String
  epoch : UInt32
  encoding : Encoding
  base : Counters
  target : Counters

/-- `str::as_bytes`. -/
def asBytes (s : String) : List UInt8 := s.toByteArray.data.toList

/-- `sort_unstable_by_key`: by the writer. -/
def sortByWriter (entries : List (UInt64 × Int32)) : List (UInt64 × Int32) :=
  entries.mergeSort fun a b => a.1 ≤ b.1

def putEntry (e : UInt64 × Int32) : List UInt8 := toBe 8 e.1.toNat ++ toBe 4 e.2.toUInt32.toNat

def writeVersion (out : List UInt8) (version : Counters) : Except Error (List UInt8) :=
  if version.entries.any fun e => e.2 < 0 then .error (.invalidManifest "negative document version counter")
  else
    let entries := version.live.take (MAX_METADATA_BYTES / VERSION_ENTRY_BYTES + 1)
    if MAX_METADATA_BYTES < out.length + 4 + entries.length * VERSION_ENTRY_BYTES then
      .error (.resourceLimit "document versions exceed metadata budget")
    else .ok (out ++ toBe 4 entries.length ++ (sortByWriter entries).flatMap putEntry)

/-- What stands before the versions: the magic, the name behind its length, the epoch and the encoding. -/
def Descriptor.front (d : Descriptor) : List UInt8 :=
  DOC_MAGIC ++ toBe 4 (asBytes d.document).length ++ asBytes d.document ++ toBe 4 d.epoch.toNat ++ [d.encoding.tag]

def Descriptor.bind (d : Descriptor) (source recipient : Digest) (totalBytes : UInt64) (digest : Digest) :
    Except Error Manifest :=
  if asBytes d.document = [] then .error (.invalidManifest "empty document name")
  else if MAX_METADATA_BYTES < (asBytes d.document).length then
    .error (.resourceLimit "document binding exceeds metadata budget")
  else do
    let binding ← writeVersion d.front d.base
    let binding ← writeVersion binding d.target
    let manifest : Manifest := ⟨source, recipient, binding, totalBytes, digest⟩
    manifest.validate
    .ok manifest

/-- `Reader::take`: so many bytes, and what is left. -/
def take (count : Nat) (input : List UInt8) : Except Error (List UInt8 × List UInt8) :=
  if count ≤ input.length then .ok (input.take count, input.drop count)
  else .error (.invalidManifest "truncated document binding")

/-- `Reader::u32`. -/
def u32 (input : List UInt8) : Except Error (UInt32 × List UInt8) := do
  let (bytes, input) ← take 4 input
  .ok (UInt32.ofNat (fromBe bytes), input)

/-- The loop of `Reader::version`: so many entries more, after a writer. -/
def readEntries : Nat → Option UInt64 → Counters → List UInt8 → Except Error (Counters × List UInt8)
  | 0, _, version, input => .ok (version, input)
  | left + 1, previous, version, input => do
      let (bytes, input) ← take 8 input
      let writer := UInt64.ofNat (fromBe bytes)
      let (counter, input) ← u32 input
      if previous.any (writer ≤ ·) || counter == 0 || 2147483647 < counter then
        .error (.invalidManifest "noncanonical document version")
      else readEntries left (some writer) (version.insert writer counter.toInt32) input

/-- `Reader::version`. -/
def readVersion (input : List UInt8) : Except Error (Counters × List UInt8) := do
  let (count, input) ← u32 input
  if input.length / VERSION_ENTRY_BYTES < count.toNat then .error (.invalidManifest "truncated document version")
  else readEntries count.toNat none ∅ input

/-- `str::from_utf8`. -/
def fromUtf8 (bytes : List UInt8) : Except Error String :=
  match String.fromUTF8? ⟨bytes.toArray⟩ with
  | some document => .ok document
  | none => .error (.invalidManifest "document name is not UTF-8")

def readEncoding (input : List UInt8) : Except Error (Encoding × List UInt8) := do
  let (tag, input) ← take 1 input
  match tag with
  | [0] => .ok (.updates, input)
  | [1] => .ok (.snapshot, input)
  | _ => .error (.invalidManifest "unsupported document encoding")

/-- What a reader leaves must be nothing. -/
def exhausted (input : List UInt8) (why : String) : Except Error Unit :=
  if input = [] then .ok () else .error (.invalidManifest why)

def readMagic (magic : List UInt8) (why : String) (input : List UInt8) : Except Error (List UInt8) := do
  let (read, input) ← take magic.length input
  if read ≠ magic then .error (.invalidManifest why) else .ok input

/-- A name behind its length: UTF-8, and not empty. -/
def readName (input : List UInt8) : Except Error (String × List UInt8) := do
  let (nameLen, input) ← u32 input
  let (name, input) ← take nameLen.toNat input
  let document ← fromUtf8 name
  if asBytes document = [] then .error (.invalidManifest "empty document name") else .ok (document, input)

def Descriptor.fromManifest (manifest : Manifest) : Except Error Descriptor := do
  manifest.validate
  let input ← readMagic DOC_MAGIC "unsupported document binding revision" manifest.binding
  let (document, input) ← readName input
  let (epoch, input) ← u32 input
  let (encoding, input) ← readEncoding input
  let (base, input) ← readVersion input
  let (target, input) ← readVersion input
  exhausted input "trailing document binding bytes"
  .ok ⟨document, epoch, encoding, base, target⟩

structure DocumentVersion where
  epoch : UInt32
  version : Counters

def DocumentVersion.encode (v : DocumentVersion) : Except Error (List UInt8) :=
  writeVersion (VERSION_MAGIC ++ toBe 4 v.epoch.toNat) v.version

def DocumentVersion.decode (bytes : List UInt8) : Except Error DocumentVersion :=
  if MAX_METADATA_BYTES < bytes.length then .error (.resourceLimit "document version exceeds metadata budget")
  else do
    let input ← readMagic VERSION_MAGIC "unsupported document version revision" bytes
    let (epoch, input) ← u32 input
    let (version, input) ← readVersion input
    exhausted input "trailing document version bytes"
    .ok ⟨epoch, version⟩

/-! ### Readers, step by step -/

variable {input rest out : List UInt8} {es : List (UInt64 × Int32)} {version : Counters}

theorem take_ok {n : Nat} {bytes : List UInt8} :
    take n input = .ok (bytes, rest) ↔ bytes.length = n ∧ input = bytes ++ rest := by
  unfold take
  constructor
  · intro is
    by_cases enough : n ≤ input.length
    · rw [if_pos enough] at is
      cases is
      exact ⟨List.length_take_of_le enough, (List.take_append_drop n input).symm⟩
    · rw [if_neg enough] at is
      cases is
  · rintro ⟨rfl, rfl⟩
    rw [if_pos (by rw [List.length_append]; omega), List.take_left, List.drop_left]

theorem u32_ok {x : UInt32} : u32 input = .ok (x, rest) ↔ input = toBe 4 x.toNat ++ rest := by
  unfold u32
  constructor
  · intro run
    obtain ⟨⟨bytes, left⟩, taken, is⟩ := bind_ok.mp run
    obtain ⟨len, rfl⟩ := take_ok.mp taken
    cases is
    obtain ⟨small, spelled⟩ := fromBe_spelled len
    rw [UInt32.toNat_ofNat_of_lt' small, spelled]
  · rintro rfl
    have taken : take 4 (toBe 4 x.toNat ++ rest) = .ok (toBe 4 x.toNat, rest) := take_ok.mpr ⟨toBe_length 4 _, rfl⟩
    rw [bind_of_ok _ taken]
    show Except.ok (UInt32.ofNat (fromBe (toBe 4 x.toNat)), rest) = _
    rw [fromBe_toBe 4 x.toNat x.toNat_lt, UInt32.ofNat_toNat]

theorem readMagic_ok {magic : List UInt8} {why : String} :
    readMagic magic why input = .ok rest ↔ input = magic ++ rest := by
  unfold readMagic
  constructor
  · intro run
    obtain ⟨⟨bytes, left⟩, taken, is⟩ := bind_ok.mp run
    obtain ⟨-, rfl⟩ := take_ok.mp taken
    dsimp only at is
    by_cases same : bytes = magic
    · rw [if_neg (not_not_intro same)] at is
      cases is
      rw [same]
    · rw [if_pos same] at is
      cases is
  · rintro rfl
    have taken : take magic.length (magic ++ rest) = .ok (magic, rest) := take_ok.mpr ⟨rfl, rfl⟩
    rw [bind_of_ok _ taken]
    exact if_neg (not_not_intro rfl)

theorem readEncoding_ok {e : Encoding} : readEncoding input = .ok (e, rest) ↔ input = e.tag :: rest := by
  unfold readEncoding
  constructor
  · intro run
    obtain ⟨⟨bytes, left⟩, taken, is⟩ := bind_ok.mp run
    obtain ⟨-, rfl⟩ := take_ok.mp taken
    dsimp only at is
    split at is <;> cases is <;> rfl
  · rintro rfl
    have taken : take 1 (e.tag :: rest) = .ok ([e.tag], rest) := take_ok.mpr ⟨rfl, rfl⟩
    rw [bind_of_ok _ taken]
    cases e <;> rfl

theorem exhausted_ok {why : String} : exhausted input why = .ok () ↔ input = [] := by
  unfold exhausted
  by_cases none : input = []
  · simp only [none, if_true]
  · simp only [none, if_false, reduceCtorEq]

theorem fromUtf8_ok {bytes : List UInt8} {s : String} : fromUtf8 bytes = .ok s ↔ asBytes s = bytes := by
  unfold fromUtf8 String.fromUTF8? asBytes
  constructor
  · intro is
    by_cases valid : (⟨bytes.toArray⟩ : ByteArray).IsValidUTF8
    · rw [dif_pos valid] at is
      cases is
      rfl
    · rw [dif_neg valid] at is
      cases is
  · rintro rfl
    have whole : (⟨s.toByteArray.data.toList.toArray⟩ : ByteArray) = s.toByteArray := by rw [Array.toArray_toList]
    have valid : (⟨s.toByteArray.data.toList.toArray⟩ : ByteArray).IsValidUTF8 := whole ▸ s.isValidUTF8
    rw [dif_pos valid]
    exact congrArg Except.ok (String.toByteArray_inj.mp whole)

theorem readName_ok {s : String} : readName input = .ok (s, rest) ↔
      asBytes s ≠ [] ∧ (asBytes s).length < 2 ^ 32 ∧
        input = toBe 4 (asBytes s).length ++ asBytes s ++ rest := by
  unfold readName
  constructor
  · intro run
    obtain ⟨⟨len, left⟩, counted, afterCount⟩ := bind_ok.mp run
    obtain ⟨⟨name, left'⟩, taken, afterName⟩ := bind_ok.mp afterCount
    obtain ⟨document, text, is⟩ := bind_ok.mp afterName
    obtain rfl := u32_ok.mp counted
    obtain ⟨length, rfl⟩ := take_ok.mp taken
    obtain rfl := fromUtf8_ok.mp text
    by_cases named : asBytes document = []
    · rw [if_pos named] at is
      cases is
    · rw [if_neg named] at is
      cases is
      exact ⟨named, length ▸ len.toNat_lt, by rw [length, List.append_assoc]⟩
  · rintro ⟨named, short, rfl⟩
    have length : (UInt32.ofNat (asBytes s).length).toNat = (asBytes s).length := UInt32.toNat_ofNat_of_lt' short
    have counted : u32 (toBe 4 (asBytes s).length ++ asBytes s ++ rest) =
        .ok (UInt32.ofNat (asBytes s).length, asBytes s ++ rest) := by
      rw [u32_ok, length, List.append_assoc]
    have taken : take (UInt32.ofNat (asBytes s).length).toNat (asBytes s ++ rest) = .ok (asBytes s, rest) := by
      rw [take_ok, length]
      exact ⟨rfl, rfl⟩
    rw [bind_of_ok _ counted]
    dsimp only
    rw [bind_of_ok _ taken]
    dsimp only
    rw [bind_of_ok _ (fromUtf8_ok.mpr rfl), if_neg named]

/-! ### Version entries -/

/-- Entries in strict writer order, all after `previous`, each with operations to count. -/
structure Ascending (previous : Option UInt64) (entries : List (UInt64 × Int32)) : Prop where
  after : ∀ e ∈ entries, ∀ p ∈ previous, p < e.1
  sorted : entries.Pairwise fun a b => a.1 < b.1
  positive : ∀ e ∈ entries, 0 < e.2

theorem Ascending.nil (previous : Option UInt64) : Ascending previous [] where
  after _ mem := absurd mem List.not_mem_nil
  sorted := List.Pairwise.nil
  positive _ mem := absurd mem List.not_mem_nil

theorem Ascending.cons_iff {previous : Option UInt64} {e : UInt64 × Int32} :
    Ascending previous (e :: es) ↔ (∀ p ∈ previous, p < e.1) ∧ 0 < e.2 ∧ Ascending (some e.1) es := by
  constructor
  · rintro ⟨after, sorted, positive⟩
    obtain ⟨first, later⟩ := List.pairwise_cons.mp sorted
    refine ⟨after e (.head _), positive e (.head _), ?_, later, ?_⟩
    · rintro e' mem p ⟨⟩
      exact first e' mem
    · exact fun e' mem => positive e' (.tail _ mem)
  · rintro ⟨after, pos, ⟨first, sorted, positive⟩⟩
    refine ⟨?_, List.pairwise_cons.mpr ⟨fun e' mem => first e' mem e.1 rfl, sorted⟩, ?_⟩
    · intro e' mem p is
      obtain rfl | mem := List.mem_cons.mp mem
      · exact after p is
      · exact UInt64.lt_trans (after p is) (first e' mem e.1 rfl)
    · intro e' mem
      obtain rfl | mem := List.mem_cons.mp mem
      · exact pos
      · exact positive e' mem

/-- A map with these entries put in one after another. -/
def insertAll (version : Counters) (entries : List (UInt64 × Int32)) : Counters :=
  entries.foldl (fun v e => v.insert e.1 e.2) version

/-- The counters above zero are the numbers the reader takes without a sign. -/
theorem positive_iff (c : Int32) : 0 < c ↔ c.toUInt32 ≠ 0 ∧ ¬ 2147483647 < c.toUInt32 := by
  have signed : c.toInt = c.toBitVec.toInt := rfl
  have unsigned : c.toUInt32.toNat = c.toBitVec.toNat := rfl
  have bound : c.toBitVec.toNat < 2 ^ 32 := c.toBitVec.isLt
  have zero : c.toUInt32 = 0 ↔ c.toBitVec.toNat = 0 := UInt32.toNat_inj.symm
  have top : (2147483647 : UInt32).toNat = 2147483647 := rfl
  have none : (0 : Int32).toInt = 0 := rfl
  rw [Int32.lt_iff_toInt_lt, signed, none, BitVec.toInt_eq_toNat_cond, UInt32.lt_iff_toNat_lt, unsigned, top,
    ne_eq, zero]
  split <;> omega

theorem putEntry_append {e : UInt64 × Int32} (is : input = putEntry e ++ rest) :
    take 8 input = .ok (toBe 8 e.1.toNat, toBe 4 e.2.toUInt32.toNat ++ rest) := by
  rw [take_ok, is, putEntry, List.append_assoc]
  exact ⟨toBe_length 8 _, rfl⟩

/-- What the loop reads is entries as the writer spells them, in strict order. -/
theorem readEntries_reads {n : Nat} : ∀ {previous : Option UInt64} {version v : Counters} {input rest : List UInt8},
    readEntries n previous version input = .ok (v, rest) →
      ∃ es, es.length = n ∧ Ascending previous es ∧ input = es.flatMap putEntry ++ rest ∧
        v = insertAll version es := by
  induction n with
  | zero =>
      intro previous version v input rest run
      cases run
      exact ⟨[], rfl, Ascending.nil previous, rfl, rfl⟩
  | succ n ih =>
      intro previous version v input rest run
      obtain ⟨⟨bytes, left⟩, taken, afterWriter⟩ := bind_ok.mp run
      obtain ⟨⟨counter, left'⟩, counted, is⟩ := bind_ok.mp afterWriter
      obtain ⟨len, rfl⟩ := take_ok.mp taken
      obtain rfl := u32_ok.mp counted
      obtain ⟨small, spelled⟩ := fromBe_spelled len
      dsimp only at is
      split at is
      · cases is
      · rename_i canonical
        obtain ⟨es, rfl, ascending, rfl, rfl⟩ := ih is
        simp only [Bool.or_eq_true, Option.any_eq_true, decide_eq_true_eq, beq_iff_eq, not_or, not_exists,
          not_and] at canonical
        obtain ⟨⟨after, nonzero⟩, bounded⟩ := canonical
        refine ⟨(UInt64.ofNat (fromBe bytes), counter.toInt32) :: es, rfl, ?_, ?_, rfl⟩
        · refine Ascending.cons_iff.mpr ⟨fun p is => UInt64.not_le.mp (after p is), ?_, ascending⟩
          exact (positive_iff counter.toInt32).mpr ⟨nonzero, bounded⟩
        · rw [List.flatMap_cons, putEntry, UInt64.toNat_ofNat_of_lt' small, spelled, UInt32.toUInt32_toInt32]
          simp only [List.append_assoc]

/-- And entries in strict order are read. -/
theorem readEntries_writes : ∀ {es : List (UInt64 × Int32)} {previous : Option UInt64} {version : Counters}
    {rest : List UInt8}, Ascending previous es →
      readEntries es.length previous version (es.flatMap putEntry ++ rest) = .ok (insertAll version es, rest)
  | [], _, _, _, _ => rfl
  | (w, c) :: es, previous, version, rest, ascending => by
      obtain ⟨after, pos, later⟩ := Ascending.cons_iff.mp ascending
      obtain ⟨nonzero, bounded⟩ := (positive_iff c).mp pos
      have taken : take 8 (((w, c) :: es).flatMap putEntry ++ rest) =
          .ok (toBe 8 w.toNat, toBe 4 c.toUInt32.toNat ++ (es.flatMap putEntry ++ rest)) := by
        apply putEntry_append (e := (w, c))
        rw [List.flatMap_cons, List.append_assoc]
      have counted : u32 (toBe 4 c.toUInt32.toNat ++ (es.flatMap putEntry ++ rest)) =
          .ok (c.toUInt32, es.flatMap putEntry ++ rest) := u32_ok.mpr rfl
      have writer : UInt64.ofNat (fromBe (toBe 8 w.toNat)) = w := by
        rw [fromBe_toBe 8 w.toNat w.toNat_lt, UInt64.ofNat_toNat]
      have canonical : ¬ (previous.any (w ≤ ·) || c.toUInt32 == 0 || 2147483647 < c.toUInt32) = true := by
        simp only [Bool.or_eq_true, Option.any_eq_true, decide_eq_true_eq, beq_iff_eq, not_or, not_exists, not_and]
        exact ⟨⟨fun p is => UInt64.not_le.mpr (after p is), nonzero⟩, bounded⟩
      rw [List.length_cons, readEntries, bind_of_ok _ taken]
      dsimp only
      rw [bind_of_ok _ counted]
      dsimp only
      rw [writer, if_neg canonical, Int32.toInt32_toUInt32]
      exact readEntries_writes later

/-! ### A whole version -/

/-- How a version is spelled: how many entries above zero, then the entries in writer order. -/
def spelled (version : Counters) : List UInt8 :=
  toBe 4 version.live.length ++ (sortByWriter version.live).flatMap putEntry

theorem putEntry_length (e : UInt64 × Int32) : (putEntry e).length = 12 := by
  rw [putEntry, List.length_append, toBe_length, toBe_length]

theorem sortByWriter_perm (es : List (UInt64 × Int32)) : (sortByWriter es).Perm es := List.mergeSort_perm _ _

theorem spelled_length (version : Counters) : (spelled version).length = 4 + version.live.length * 12 := by
  rw [spelled, List.length_append, toBe_length, flatMap_length putEntry_length, (sortByWriter_perm _).length_eq]

/-- No writer stands twice, so the order is strict. -/
theorem sortByWriter_sorted (nodup : (es.map Prod.fst).Nodup) : (sortByWriter es).Pairwise fun a b => a.1 < b.1 := by
  have ordered : (sortByWriter es).Pairwise fun a b => decide (a.1 ≤ b.1) = true := by
    apply List.pairwise_mergeSort
    · intro a b c ab bc
      exact decide_eq_true (UInt64.le_trans (of_decide_eq_true ab) (of_decide_eq_true bc))
    · intro a b
      rw [Bool.or_eq_true, decide_eq_true_eq, decide_eq_true_eq]
      exact UInt64.le_total a.1 b.1
  have distinct : (sortByWriter es).Pairwise fun a b => a.1 ≠ b.1 :=
    List.pairwise_map.mp (((sortByWriter_perm es).map Prod.fst).nodup_iff.mpr nodup)
  exact (ordered.and distinct).imp fun h => UInt64.lt_of_le_of_ne (of_decide_eq_true h.1) h.2

/-- A set of entries with no writer twice is spelled in one order only. -/
theorem strict_unique {es' : List (UInt64 × Int32)} (sorted : es.Pairwise fun a b => a.1 < b.1)
    (sorted' : es'.Pairwise fun a b => a.1 < b.1) (same : ∀ e, e ∈ es ↔ e ∈ es') : es = es' := by
  have apart {l : List (UInt64 × Int32)} (strict : l.Pairwise fun a b => a.1 < b.1) : l.Nodup := by
    apply strict.imp
    rintro a _ less rfl
    exact UInt64.lt_irrefl a.1 less
  have perm : es.Perm es' := (List.perm_ext_iff_of_nodup (apart sorted) (apart sorted')).mpr same
  exact perm.eq_of_pairwise (fun a b _ _ ab ba => absurd ba (UInt64.lt_asymm ab)) sorted sorted'

theorem lookup_insertAll : ∀ {es : List (UInt64 × Int32)} {version : Counters} {w : UInt64} {c : Int32},
    (es.Pairwise fun a b => a.1 < b.1) →
      ((insertAll version es).lookup w = some c ↔
        (w, c) ∈ es ∨ ((∀ c', (w, c') ∉ es) ∧ version.lookup w = some c))
  | [], version, w, c, _ => by
      rw [insertAll, List.foldl_nil]
      exact ⟨fun found => .inr ⟨fun _ => List.not_mem_nil, found⟩, fun h => h.elim (nomatch ·) (·.2)⟩
  | (w', c') :: es, version, w, c, sorted => by
      obtain ⟨first, later⟩ := List.pairwise_cons.mp sorted
      rw [insertAll, List.foldl_cons]
      have ih := @lookup_insertAll es (version.insert w' c') w c later
      rw [insertAll] at ih
      rw [ih]
      by_cases one : w = w'
      · subst one
        have absent : ∀ c'', (w, c'') ∉ es := fun c'' mem => UInt64.lt_irrefl w (first _ mem)
        rw [AList.lookup_insert]
        grind
      · rw [AList.lookup_insert_ne one]
        grind

section

variable (ascending : Ascending none es)
include ascending

/-- What the loop gathers from entries in strict order holds just them. -/
theorem mem_gathered {w : UInt64} {c : Int32} : (insertAll ∅ es).lookup w = some c ↔ (w, c) ∈ es := by
  rw [lookup_insertAll ascending.sorted, AList.lookup_empty]
  simp only [reduceCtorEq, and_false, or_false]

theorem gathered_counted : (insertAll ∅ es).Counted := fun _ mem =>
  Int32.le_of_lt (ascending.positive _ ((mem_gathered ascending).mp (AList.mem_lookup_iff.mpr mem)))

theorem mem_live_gathered (e : UInt64 × Int32) : e ∈ (insertAll ∅ es).live ↔ e ∈ es := by
  obtain ⟨w, c⟩ := e
  rw [Counters.mem_live, mem_gathered ascending]
  exact and_iff_left_of_imp (ascending.positive _)

/-- So it is spelled by the same entries. -/
theorem spelled_gathered : spelled (insertAll ∅ es) = toBe 4 es.length ++ es.flatMap putEntry := by
  have order : sortByWriter (insertAll ∅ es).live = es := by
    apply strict_unique (sortByWriter_sorted (Counters.live_keys_nodup _)) ascending.sorted
    intro e
    rw [(sortByWriter_perm _).mem_iff, mem_live_gathered ascending]
  have count : (insertAll ∅ es).live.length = es.length := by rw [← (sortByWriter_perm _).length_eq, order]
  rw [spelled, order, count]

end

theorem sorted_live_ascending (version : Counters) : Ascending none (sortByWriter version.live) where
  after _ _ _ is := nomatch is
  sorted := sortByWriter_sorted version.live_keys_nodup
  positive _ mem := (Counters.mem_live.mp ((sortByWriter_perm _).mem_iff.mp mem)).2

/-- What is read as a version is that version's spelling, and no counter in it is negative. -/
theorem readVersion_reads {v : Counters} (run : readVersion input = .ok (v, rest)) :
    input = spelled v ++ rest ∧ v.Counted := by
  obtain ⟨⟨count, left⟩, counted, is⟩ := bind_ok.mp run
  obtain rfl := u32_ok.mp counted
  dsimp only at is
  split at is
  · cases is
  · obtain ⟨es, length, ascending, rfl, rfl⟩ := readEntries_reads is
    rw [spelled_gathered ascending, length, List.append_assoc]
    exact ⟨rfl, gathered_counted ascending⟩

/-- A spelling is read, as a version with the same entries above zero. -/
theorem readVersion_writes {version : Counters} (rest : List UInt8) (short : version.live.length < 2 ^ 32) :
    ∃ v, readVersion (spelled version ++ rest) = .ok (v, rest) ∧ v.Counted ∧
      ∀ e, e ∈ v.live ↔ e ∈ version.live := by
  have ascending := sorted_live_ascending version
  have length : (sortByWriter version.live).length = version.live.length := (sortByWriter_perm _).length_eq
  have count : (UInt32.ofNat version.live.length).toNat = version.live.length := UInt32.toNat_ofNat_of_lt' short
  have counted : u32 (spelled version ++ rest) =
      .ok (UInt32.ofNat version.live.length, (sortByWriter version.live).flatMap putEntry ++ rest) := by
    rw [u32_ok, count, spelled, List.append_assoc]
  have enough : ¬ ((sortByWriter version.live).flatMap putEntry ++ rest).length / VERSION_ENTRY_BYTES <
      (UInt32.ofNat version.live.length).toNat := by
    rw [count, List.length_append, flatMap_length putEntry_length, length, VERSION_ENTRY_BYTES]
    omega
  have entries := @readEntries_writes _ _ ∅ rest ascending
  rw [length] at entries
  refine ⟨insertAll ∅ (sortByWriter version.live), ?_, gathered_counted ascending, fun e => ?_⟩
  · rw [readVersion, bind_of_ok _ counted]
    dsimp only
    rw [if_neg enough, count, entries]
  · rw [mem_live_gathered ascending, (sortByWriter_perm _).mem_iff]

theorem counted_iff (version : Counters) : version.Counted ↔ ¬ (version.entries.any fun e => e.2 < 0) = true := by
  simp only [Counters.Counted, List.any_eq_true, decide_eq_true_eq, not_exists, not_and, Int32.not_lt]

theorem writeVersion_negative (negative : ¬ version.Counted) :
    writeVersion out version = .error (.invalidManifest "negative document version counter") := by
  rw [counted_iff, not_not] at negative
  rw [writeVersion, if_pos negative]

/-- The entries that are left out before sorting are too many to fit either way. -/
theorem writeVersion_long (counted : version.Counted)
    (long : MAX_METADATA_BYTES < out.length + (spelled version).length) :
    writeVersion out version = .error (.resourceLimit "document versions exceed metadata budget") := by
  rw [spelled_length, MAX_METADATA_BYTES] at long
  rw [writeVersion, if_neg ((counted_iff version).mp counted)]
  simp only [MAX_METADATA_BYTES, VERSION_ENTRY_BYTES, List.length_take]
  rw [if_pos (by omega)]

/-- Where it fits, every entry is written. -/
theorem writeVersion_fits {out : List UInt8} {version : Counters} (counted : version.Counted)
    (fits : out.length + (spelled version).length ≤ MAX_METADATA_BYTES) :
    writeVersion out version = .ok (out ++ spelled version) := by
  rw [spelled_length, MAX_METADATA_BYTES] at fits
  have whole : version.live.take (MAX_METADATA_BYTES / VERSION_ENTRY_BYTES + 1) = version.live := by
    apply List.take_of_length_le
    simp only [MAX_METADATA_BYTES, VERSION_ENTRY_BYTES]
    omega
  have room : ¬ MAX_METADATA_BYTES < out.length + 4 + version.live.length * VERSION_ENTRY_BYTES := by
    simp only [MAX_METADATA_BYTES, VERSION_ENTRY_BYTES]
    omega
  rw [writeVersion, if_neg ((counted_iff version).mp counted)]
  dsimp only
  rw [whole, if_neg room, spelled, List.append_assoc]

/-- What is written is the version's spelling, where every counter is a count and the spelling fits. -/
theorem writeVersion_ok {b : List UInt8} : writeVersion out version = .ok b ↔
      version.Counted ∧ out.length + (spelled version).length ≤ MAX_METADATA_BYTES ∧ b = out ++ spelled version := by
  constructor
  · intro run
    by_cases counted : version.Counted
    · by_cases fits : out.length + (spelled version).length ≤ MAX_METADATA_BYTES
      · rw [writeVersion_fits counted fits] at run
        cases run
        exact ⟨counted, fits, rfl⟩
      · rw [writeVersion_long counted (Nat.lt_of_not_le fits)] at run
        cases run
    · rw [writeVersion_negative counted] at run
      cases run
  · rintro ⟨counted, fits, rfl⟩
    exact writeVersion_fits counted fits

end Khor.Bindings
