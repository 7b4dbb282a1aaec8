/-
Module: Khor.Sync.Staging
Purpose: The byte staging of a transfer (sync/src/transfer.rs): a body that grows by canonical chunks, a journal with a
  checkpoint for each, and the recovery that reads the journal again after the process was stopped.
Trusted boundary: blake3 is a parameter, and its incremental form is the digest of the bytes it was fed; what a kill leaves
  of the files is what the writes before it wrote
Main exports: Manifest, Stage, Sink, Sink.append, checkpoint
-/
import Khor.Lib.BigEndian

namespace Khor.Staging

abbrev Bytes := List UInt8

def CHUNK_BYTES : Nat := 256 * 1024

def MAX_BLOB_BYTES : Nat := 64 * 1024 * 1024

def RECORD_BYTES : Nat := 8 + 32 + 32

def MAX_RECORDS : Nat := MAX_BLOB_BYTES / CHUNK_BYTES + 1

inductive Error where
  | invalidStage (why : String)
  | outOfOrder (expected received : Nat)
  | invalidChunk (why : String)
  | conflictingDuplicate
  | digestMismatch
  | io
deriving DecidableEq

inductive Progress where
  | stored (nextOffset : Nat)
  | verifiedComplete (id : Bytes) (bytes : Nat)
deriving DecidableEq

/-- A digest of 32 bytes. -/
structure Hash where
  hash : Bytes → Bytes
  length : ∀ bytes, (hash bytes).length = 32

/-- What a sink reads of a manifest that `validate` accepts, with its id. -/
structure Manifest where
  id : Bytes
  totalBytes : Nat
  digest : Bytes
  valid : totalBytes ≤ MAX_BLOB_BYTES

/-- The files of a published stage. -/
structure Stage where
  body : Bytes
  offsets : Bytes

/-- `Sink`; of the hasher the bytes it was fed. -/
structure Sink where
  offset : Nat
  hasher : Bytes
  poisoned : Bool

variable (h : Hash)

/-- `checkpoint`: the record of an offset and of the digest of the body up to it. -/
def checkpoint (id : Bytes) (offset : Nat) (digest : Bytes) : Bytes :=
  let head := toBe 8 offset ++ digest
  head ++ h.hash ("khor-transfer-offset-v1".toUTF8.data.toList ++ id ++ head)

/-- `Sink::progress`. -/
def Sink.progress (m : Manifest) (s : Sink) : Except Error Progress :=
  if s.poisoned then .error (.invalidStage "uncertain write; drop and reopen")
  else if s.offset ≠ m.totalBytes then .ok (.stored s.offset)
  else if h.hash s.hasher ≠ m.digest then .error .digestMismatch
  else .ok (.verifiedComplete m.id s.offset)

/-- What `Sink::append` does with a chunk: it answers at once, or writes the chunk to the body. -/
inductive Appended where
  | answers (result : Except Error Progress)
  | writes

/-- `Sink::append` up to its first write. -/
def Sink.append (m : Manifest) (s : Sink) (body : Bytes) (start : Nat) (bytes : Bytes) : Appended :=
  if s.poisoned then .answers (.error (.invalidStage "uncertain write; drop and reopen"))
  else if s.offset < start then .answers (.error (.outOfOrder s.offset start))
  else if CHUNK_BYTES < bytes.length then .answers (.error (.invalidChunk "chunk exceeds 256 KiB"))
  else if 2 ^ 64 ≤ start + bytes.length then .answers (.error (.invalidChunk "offset overflow"))
  else if m.totalBytes < start + bytes.length then .answers (.error (.invalidChunk "chunk exceeds declared total"))
  else if start + bytes.length ≠ m.totalBytes ∧ bytes.length ≠ CHUNK_BYTES then
    .answers (.error (.invalidChunk "non-final chunk is not 256 KiB"))
  else if bytes = [] then .answers (s.progress h m)
  else if start < s.offset then
    if s.offset < start + bytes.length then .answers (.error (.invalidChunk "duplicate overlaps unstored bytes"))
    else if body.length < start + bytes.length then .answers (.error .io)
    else if (body.drop start).take bytes.length ≠ bytes then .answers (.error .conflictingDuplicate)
    else .answers (s.progress h m)
  else .writes

/-- A write at a place of a file. -/
def writeAt (file : Bytes) (start : Nat) (bytes : Bytes) : Bytes :=
  file.take start ++ bytes ++ file.drop (start + bytes.length)

/-- `chunks_exact`: what does not fill a chunk is left out. -/
def chunksExact (n : Nat) (bytes : Bytes) : List Bytes :=
  (List.range (bytes.length / n)).map fun i => (bytes.drop (i * n)).take n

/-- The loop of `recover` over the records: how much of the journal is accepted, and the offset and digest it leads to. -/
def walk (id : Bytes) (total : Nat) : List Bytes → Nat → Nat → Bytes → Except Error (Nat × Nat × Bytes)
  | [], accepted, offset, digest => .ok (accepted, offset, digest)
  | record :: records, accepted, offset, digest =>
      let stop := fromBe (record.take 8)
      let next := (record.drop 8).take 32
      if checkpoint h id stop next ≠ record then .ok (accepted, offset, digest)
      else if accepted = 0 then
        if stop ≠ 0 ∨ next ≠ digest then .error (.invalidStage "missing initial checkpoint")
        else walk id total records (accepted + RECORD_BYTES) stop next
      else if stop ≤ offset ∨ total < stop ∨ CHUNK_BYTES < stop - offset ∨
          (stop ≠ total ∧ stop - offset ≠ CHUNK_BYTES) then
        .error (.invalidStage "invalid checkpoint offset")
      else walk id total records (accepted + RECORD_BYTES) stop next

/-- `recover` up to the two truncations: the offset, the hasher, and how much of the journal stays. -/
def recover (id : Bytes) (total : Nat) (stage : Stage) : Except Error (Nat × Bytes × Nat) :=
  if MAX_RECORDS * RECORD_BYTES < stage.offsets.length then .error (.invalidStage "checkpoint journal exceeds budget")
  else
    match walk h id total (chunksExact RECORD_BYTES stage.offsets) 0 0 (h.hash []) with
    | .error e => .error e
    | .ok (accepted, offset, digest) =>
        if accepted = 0 then .error (.invalidStage "no valid checkpoint")
        else if stage.body.length < offset then .error (.invalidStage "checkpoint exceeds stored body")
        else if h.hash (stage.body.take offset) ≠ digest then .error (.invalidStage "stored prefix digest mismatch")
        else .ok (offset, stage.body.take offset, accepted)

/-- `Outbound::read_chunk` of a verified body. -/
def readChunk (total : Nat) (body : Bytes) (start : Nat) : Except Error Bytes :=
  if total < start ∨ (start ≠ total ∧ start % CHUNK_BYTES ≠ 0) then
    .error (.invalidChunk "noncanonical outbound read offset")
  else .ok ((body.drop start).take (min (total - start) CHUNK_BYTES))

/-! ### The journal of a body -/

/-- Chunks that follow one another as `append` accepts them: full ones, but for the last of the body. -/
def Canonical (total : Nat) : Nat → List Bytes → Prop
  | _, [] => True
  | offset, chunk :: chunks => chunk ≠ [] ∧ chunk.length ≤ CHUNK_BYTES ∧ offset + chunk.length ≤ total ∧
      (offset + chunk.length = total ∨ chunk.length = CHUNK_BYTES) ∧ Canonical total (offset + chunk.length) chunks

/-- The records of the chunks that follow a body. -/
def log (id : Bytes) : Bytes → List Bytes → List Bytes
  | _, [] => []
  | body, chunk :: chunks =>
      checkpoint h id (body ++ chunk).length (h.hash (body ++ chunk)) :: log id (body ++ chunk) chunks

/-- The journal of a body that came in the given chunks. -/
def journal (id : Bytes) (chunks : List Bytes) : List Bytes :=
  checkpoint h id 0 (h.hash []) :: log h id [] chunks

variable {h} {id : Bytes} {total : Nat}

theorem checkpoint_length (offset : Nat) {digest : Bytes} (is : digest.length = 32) :
    (checkpoint h id offset digest).length = RECORD_BYTES := by
  simp [checkpoint, is, h.length, RECORD_BYTES]

variable {offset : Nat} {chunks : List Bytes}

theorem checkpoint_reads (id : Bytes) (lt : offset < 2 ^ 64) {digest : Bytes} (is : digest.length = 32) :
    fromBe ((checkpoint h id offset digest).take 8) = offset ∧
      ((checkpoint h id offset digest).drop 8).take 32 = digest := by
  have eight : (toBe 8 offset).length = 8 := toBe_length 8 offset
  constructor
  · rw [checkpoint, List.append_assoc, List.take_append_of_le_length (by omega), List.take_of_length_le (by omega)]
    exact fromBe_toBe 8 offset lt
  · rw [checkpoint, List.append_assoc, List.drop_append_of_le_length (by omega), List.drop_of_length_le (by omega),
      List.nil_append, List.take_append_of_le_length (by omega), List.take_of_length_le (by omega)]

theorem canonical_snoc {chunk : Bytes} : Canonical total offset (chunks ++ [chunk]) ↔ Canonical total offset chunks ∧
      Canonical total (offset + chunks.flatten.length) [chunk] := by
  induction chunks generalizing offset with
  | nil => simp [Canonical]
  | cons first chunks ih =>
      simp only [List.cons_append, Canonical, ih, List.flatten_cons, List.length_append, ← Nat.add_assoc]
      simp only [and_assoc]

/-- Canonical chunks lead to a full offset, or to the end of the body. -/
theorem canonical_offset (canonical : Canonical total offset chunks) (le : offset ≤ total)
    (start : offset = total ∨ offset % CHUNK_BYTES = 0) : offset + chunks.flatten.length ≤ total ∧
      (offset + chunks.flatten.length = total ∨ (offset + chunks.flatten.length) % CHUNK_BYTES = 0) := by
  induction chunks generalizing offset with
  | nil => simpa using ⟨le, start⟩
  | cons chunk chunks ih =>
      obtain ⟨some_, most, fits, full, rest⟩ := canonical
      have pos := List.length_pos_of_ne_nil some_
      rw [List.flatten_cons, List.length_append, ← Nat.add_assoc]
      refine ih rest fits (full.imp_right fun full => ?_)
      have start := start.resolve_left (by omega)
      rw [full, Nat.add_mod_right]
      exact start

theorem log_snoc (body : Bytes) (chunks : List Bytes) (chunk : Bytes) :
    log h id body (chunks ++ [chunk]) = log h id body chunks ++
      [checkpoint h id (body ++ chunks.flatten ++ chunk).length (h.hash (body ++ chunks.flatten ++ chunk))] := by
  induction chunks generalizing body with
  | nil => simp [log]
  | cons first chunks ih => simp [log, ih]

theorem log_records {body : Bytes} : ∀ record ∈ log h id body chunks, record.length = RECORD_BYTES := by
  induction chunks generalizing body with
  | nil => exact nofun
  | cons chunk chunks ih =>
      intro record mem
      obtain rfl | mem := List.mem_cons.mp mem
      · exact checkpoint_length _ (h.length _)
      · exact ih record mem

theorem journal_records : ∀ record ∈ journal h id chunks, record.length = RECORD_BYTES := by
  intro record mem
  obtain rfl | mem := List.mem_cons.mp mem
  · exact checkpoint_length _ (h.length _)
  · exact log_records record mem

theorem log_length (body : Bytes) (chunks : List Bytes) : (log h id body chunks).length = chunks.length := by
  induction chunks generalizing body with
  | nil => rfl
  | cons chunk chunks ih => simp [log, ih]

/-- A chunk of the record's size is read for each record, and what is left at the end is not read. -/
theorem chunksExact_flatten {n : Nat} (pos : 0 < n) {records : List Bytes} (all : ∀ record ∈ records, record.length = n)
    {rest : Bytes} (less : rest.length < n) : chunksExact n (records.flatten ++ rest) = records := by
  have length : (records.flatten ++ rest).length / n = records.length := by
    have total : records.flatten.length = records.length * n := by
      rw [List.length_flatten, List.map_congr_left all, List.map_const', List.sum_replicate_nat]
    rw [List.length_append, total, Nat.mul_comm, Nat.mul_add_div pos, Nat.div_eq_of_lt less, Nat.add_zero]
  rw [chunksExact, length]
  clear length
  induction records with
  | nil => rfl
  | cons record records ih =>
      have here := all record (.head _)
      rw [List.length_cons, List.range_succ_eq_map, List.map_cons, List.map_map, List.flatten_cons, List.append_assoc,
        Nat.zero_mul, List.drop_zero, List.take_left' here]
      refine congrArg (record :: ·) (Eq.trans (List.map_congr_left fun i _ => ?_)
        (ih fun r mem => all r (.tail _ mem)))
      show ((record ++ (records.flatten ++ rest)).drop ((i + 1) * n)).take n = _
      rw [Nat.succ_mul, Nat.add_comm, ← List.drop_drop, List.drop_left' here]

/-- The records of canonical chunks lead `walk` to the end of the body. -/
theorem walk_log {body : Bytes} {chunks : List Bytes} (canonical : Canonical total body.length chunks)
    (small : total < 2 ^ 64) {accepted : Nat} (some_ : accepted ≠ 0) :
    walk h id total (log h id body chunks) accepted body.length (h.hash body) =
      .ok (accepted + chunks.length * RECORD_BYTES, (body ++ chunks.flatten).length, h.hash (body ++ chunks.flatten)) := by
  induction chunks generalizing body accepted with
  | nil => simp [log, walk]
  | cons chunk chunks ih =>
      obtain ⟨ne, most, fits, full, rest⟩ := canonical
      have pos := List.length_pos_of_ne_nil ne
      have length : (body ++ chunk).length = body.length + chunk.length := List.length_append
      have small_ : (body ++ chunk).length < 2 ^ 64 := by omega
      obtain ⟨offset, digest⟩ := checkpoint_reads id small_ (h.length (body ++ chunk))
      rw [log, walk, offset, digest, if_neg (fun ne => ne rfl), if_neg some_, if_neg (by omega), ih (length ▸ rest) (by unfold RECORD_BYTES; omega)]
      simp only [List.length_cons, Nat.succ_mul, List.flatten_cons, ← List.append_assoc]
      rw [Nat.add_assoc, Nat.add_comm RECORD_BYTES]

/-- All chunks but the last are full, and so is the last where the body goes on. -/
theorem canonical_count (canonical : Canonical total offset chunks) :
    chunks.length * CHUNK_BYTES < chunks.flatten.length + CHUNK_BYTES ∧
      (offset + chunks.flatten.length < total → chunks.flatten.length = chunks.length * CHUNK_BYTES) := by
  induction chunks generalizing offset with
  | nil => exact ⟨by decide, fun _ => rfl⟩
  | cons chunk chunks ih =>
      obtain ⟨ne, most, fits, full, rest⟩ := canonical
      have pos := List.length_pos_of_ne_nil ne
      obtain ⟨less, all⟩ := ih rest
      rw [List.length_cons, List.flatten_cons, List.length_append, Nat.succ_mul]
      constructor
      · cases chunks with
        | nil =>
            simp only [List.length_nil, Nat.zero_mul, List.flatten_nil]
            omega
        | cons next chunks =>
            -- another chunk follows, so this one does not end the body
            have := List.length_pos_of_ne_nil rest.1
            have := rest.2.2.1
            omega
      · intro goes
        have := all (by omega)
        omega

theorem journal_length (chunks : List Bytes) :
    (journal h id chunks).flatten.length = (chunks.length + 1) * RECORD_BYTES := by
  rw [List.length_flatten, List.map_congr_left journal_records, List.map_const', List.sum_replicate_nat, journal,
    List.length_cons, log_length]

/-- The recovery of a stage whose journal is that of its chunks, with less than a record after it, finds all of them. -/
theorem recover_log (canonical : Canonical total 0 chunks) (small : total ≤ MAX_BLOB_BYTES) {stage : Stage}
    {torn : Bytes} (offsets : stage.offsets = (journal h id chunks).flatten ++ torn)
    (less : torn.length < RECORD_BYTES) (goes : torn ≠ [] → chunks.flatten.length < total)
    (body : chunks.flatten <+: stage.body) : recover h id total stage =
      .ok (chunks.flatten.length, chunks.flatten, (chunks.length + 1) * RECORD_BYTES) := by
  obtain ⟨more, is⟩ := body
  have most : MAX_BLOB_BYTES = 256 * CHUNK_BYTES := rfl
  have budget : MAX_RECORDS = 257 := by decide
  have fits : ¬MAX_RECORDS * RECORD_BYTES < stage.offsets.length := by
    obtain ⟨count, full⟩ := canonical_count canonical
    obtain ⟨upTo, -⟩ := canonical_offset canonical (Nat.zero_le _) (.inr rfl)
    rw [offsets, List.length_append, journal_length, budget]
    simp only [show CHUNK_BYTES = 262144 from rfl, show RECORD_BYTES = 72 from rfl] at *
    by_cases none_ : torn = []
    · rw [none_, List.length_nil]
      omega
    · have := goes none_
      have := full (by omega)
      omega
  obtain ⟨zero, empty⟩ := checkpoint_reads id (show 0 < 2 ^ 64 by decide) (h.length [])
  have walked : walk h id total (chunksExact RECORD_BYTES stage.offsets) 0 0 (h.hash []) =
      .ok ((chunks.length + 1) * RECORD_BYTES, chunks.flatten.length, h.hash chunks.flatten) := by
    rw [offsets, chunksExact_flatten (by decide) journal_records less, journal, walk, zero, empty, if_neg (fun ne => ne rfl),
      if_pos rfl, if_neg (by simp)]
    have rest := @walk_log h id total [] chunks canonical (Nat.lt_of_le_of_lt small (by decide)) (0 + RECORD_BYTES)
      (by decide)
    rw [List.length_nil, List.nil_append] at rest
    rw [rest, Nat.zero_add, Nat.succ_mul, Nat.add_comm]
  rw [recover, if_neg fits, walked]
  dsimp only
  have taken : stage.body.take chunks.flatten.length = chunks.flatten := by
    rw [← is, List.take_left' rfl]
  rw [if_neg (by rw [Nat.succ_mul]; have : RECORD_BYTES = 72 := rfl; omega), taken,
    if_neg (by rw [← is, List.length_append]; omega), if_neg (fun ne => ne rfl)]

end Khor.Staging
