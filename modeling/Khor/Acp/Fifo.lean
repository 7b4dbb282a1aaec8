/-
Module: Khor.Acp.Fifo
Purpose: The segmented spool is the first-in first-out file of records that the event store takes it for, however
  its calls interleave, wherever segments end and wherever a call is cancelled.
Trusted boundary: files that are there can be opened and read, what is written is written, and memory suffices
Main exports: Disk.Sound, Disk.Serves, Disk.Served, Disk.spool_is_fifo
-/
import Khor.Acp.Segments

namespace Khor.Acp.EventStore.Disk

/-! ### The pieces of a file -/

/-- What a record is on disk. -/
def enc (record : Record) : Bytes := header record ++ record.payload

def encs (records : List Record) : Bytes := records.flatMap enc

theorem header_length (record : Record) : (header record).length = HEADER_BYTES := by
  simp [header, MAGIC, HEADER_BYTES]

theorem enc_length (record : Record) : (enc record).length = HEADER_BYTES + record.payload.length := by
  rw [enc, List.length_append, header_length]

theorem encs_append (records more : List Record) : encs (records ++ more) = encs records ++ encs more :=
  List.flatMap_append

theorem encs_cons (record : Record) (more : List Record) : encs (record :: more) = enc record ++ encs more :=
  List.flatMap_cons

/-- A check passes, or it was to fail. -/
theorem checkCancel_cases (cancel : Cancel) :
    (∃ c, checkCancel cancel = .ok c ∧ (c.isSome → cancel.isSome)) ∨
      ∃ e, checkCancel cancel = .error e ∧ cancel.isSome := by
  match cancel with
  | none => exact .inl ⟨none, rfl, id⟩
  | some 0 => exact .inr ⟨_, rfl, rfl⟩
  | some (n + 1) => exact .inl ⟨some n, rfl, fun _ => rfl⟩

theorem chunks_flatten {size : Nat} (some_ : 0 < size) :
    ∀ (fuel : Nat) (bytes : Bytes), bytes.length ≤ fuel → (chunks size fuel bytes).flatten = bytes := by
  intro fuel
  induction fuel with
  | zero =>
      intro bytes le
      rw [List.length_eq_zero_iff.mp (Nat.le_zero.mp le)]
      rfl
  | succ fuel ih =>
      intro bytes le
      unfold chunks
      split
      · next nil => rw [nil]; rfl
      · next more =>
        have length := List.length_pos_iff.mpr more
        rw [List.flatten_cons, ih _ (by rw [List.length_drop]; omega), List.take_append_drop]

theorem writePieces_cases (pieces : List Bytes) : ∀ (cancel : Cancel) (file : Bytes),
    (∃ c, writePieces cancel pieces file = (.ok c, file ++ pieces.flatten) ∧ (c.isSome → cancel.isSome)) ∨
      ∃ e file', writePieces cancel pieces file = (.error e, file') ∧ cancel.isSome := by
  induction pieces with
  | nil => exact fun cancel file => .inl ⟨cancel, by simp [writePieces], id⟩
  | cons piece pieces ih =>
      intro cancel file
      unfold writePieces
      obtain ⟨c, ok, from_⟩ | ⟨e, error, cancelled⟩ := checkCancel_cases cancel
      · simp only [ok]
        obtain ⟨c', done_, from'⟩ | ⟨e, file', error, cancelled⟩ := ih c (file ++ piece)
        · exact .inl ⟨c', by rw [done_, List.append_assoc, List.flatten_cons], fun some_ => from_ (from' some_)⟩
        · exact .inr ⟨e, file', error, from_ cancelled⟩
      · simp only [error]
        exact .inr ⟨e, file, rfl, cancelled⟩

theorem readExact_append (pre mid post : Bytes) {start count : Nat} (at_ : start = pre.length)
    (length : count = mid.length) : readExact (pre ++ mid ++ post) start count = .ok mid := by
  have read : ((pre ++ mid ++ post).drop start).take count = mid := by
    rw [at_, length, List.append_assoc, List.drop_left, List.take_left]
  unfold readExact
  rw [read]
  exact if_pos length.symm

/-- The payload is read piece by piece from where it stands. -/
theorem readPayload_cases (pre payload post : Bytes) {start size : Nat} (at_ : start = pre.length)
    (length : size = payload.length) : ∀ (fuel : Nat) (cancel : Cancel) (k : Nat), k ≤ size → size ≤ k + fuel →
    (∃ c, readPayload (pre ++ payload ++ post) start size fuel cancel (payload.take k) = .ok (c, payload) ∧
        (c.isSome → cancel.isSome)) ∨
      ∃ e, readPayload (pre ++ payload ++ post) start size fuel cancel (payload.take k) = .error e ∧
        cancel.isSome := by
  intro fuel
  induction fuel with
  | zero =>
      intro cancel k le enough
      have all : payload.take k = payload := List.take_of_length_le (by omega)
      unfold readPayload
      rw [all, if_neg (by omega)]
      exact .inl ⟨cancel, rfl, id⟩
  | succ fuel ih =>
      intro cancel k le enough
      have taken : (payload.take k).length = k := by
        rw [List.length_take]
        omega
      unfold readPayload
      rw [taken]
      by_cases more : k < size
      · rw [if_pos more]
        obtain ⟨c, ok, from_⟩ | ⟨e, error, cancelled⟩ := checkCancel_cases cancel
        · generalize count : min (size - k) IO_CHUNK = n
          have some_ : 0 < IO_CHUNK := by decide
          have read : readExact (pre ++ payload ++ post) (start + k) n = .ok ((payload.drop k).take n) := by
            have split : pre ++ payload ++ post =
                (pre ++ payload.take k) ++ (payload.drop k).take n ++ ((payload.drop k).drop n ++ post) := by
              simp only [List.append_assoc]
              rw [← List.append_assoc ((payload.drop k).take n), List.take_append_drop, ← List.append_assoc (payload.take k),
                List.take_append_drop]
            rw [split]
            refine readExact_append _ _ _ ?_ ?_
            · rw [List.length_append, taken, at_]
            · rw [List.length_take, List.length_drop]
              omega
          have grown : payload.take k ++ (payload.drop k).take n = payload.take (k + n) := (List.take_add).symm
          simp only [ok, read, bind, Except.bind, grown]
          obtain ⟨c', done_, from'⟩ | ⟨e, error, cancelled⟩ := ih c (k + n) (by omega) (by omega)
          · exact .inl ⟨c', done_, fun some_ => from_ (from' some_)⟩
          · exact .inr ⟨e, error, from_ cancelled⟩
        · simp only [error, bind, Except.bind]
          exact .inr ⟨e, rfl, cancelled⟩
      · have all : payload.take k = payload := List.take_of_length_le (by omega)
        rw [if_neg more, all]
        exact .inl ⟨cancel, rfl, id⟩

theorem kindOf_kindByte (kind : RecordKind) : kindOf (kindByte kind) = .ok kind := by
  cases kind <;> rfl

/-- A record that is whole on disk is read as it was written. -/
theorem readRecord_cases (pre post : Bytes) (record : Record) {offset stop readSequence : Nat} (cancel : Cancel)
    (at_ : offset = pre.length) (fits : offset + (enc record).length ≤ stop)
    (next : record.sequence = readSequence + 1) (numbered : record.sequence ≤ u64Max)
    (small : record.payload.length ≤ u64Max) :
    readRecord (pre ++ enc record ++ post) offset stop readSequence cancel = .ok (record, record.payload.length) ∨
      ∃ e, readRecord (pre ++ enc record ++ post) offset stop readSequence cancel = .error e ∧ cancel.isSome := by
  have length := enc_length record
  have head : readExact (pre ++ enc record ++ post) offset HEADER_BYTES = .ok (header record) := by
    rw [enc, show pre ++ (header record ++ record.payload) ++ post = pre ++ header record ++ (record.payload ++ post) by
      simp only [List.append_assoc]]
    exact readExact_append _ _ _ at_ (header_length record).symm
  have width : u64Max < 256 ^ 8 := by decide
  have magic : ¬((header record).take 8 ≠ MAGIC ∨ ((header record).drop 25).any (· ≠ 0) = true) := by
    have first : (header record).take 8 = MAGIC := by simp [header, MAGIC]
    have last : (header record).drop 25 = List.replicate 7 0 := by
      simp [header, MAGIC, List.drop_append, List.drop_eq_nil_of_le]
    rw [first, last]
    decide
  have sequence : fromBe (((header record).drop 8).take 8) = record.sequence := by
    have bytes : ((header record).drop 8).take 8 = toBe 8 record.sequence := by
      simp [header, MAGIC]
    rw [bytes, fromBe_toBe _ _ (Nat.lt_of_le_of_lt numbered width)]
  have size : fromBe (((header record).drop 16).take 8) = record.payload.length := by
    have bytes : ((header record).drop 16).take 8 = toBe 8 record.payload.length := by
      simp [header, MAGIC]
    rw [bytes, fromBe_toBe _ _ (Nat.lt_of_le_of_lt small width)]
  have kind : (header record).getD 24 0 = kindByte record.kind := by
    simp [header, MAGIC]
  have room : ¬stop - offset < HEADER_BYTES := by omega
  have whole : ¬(u64Max < readSequence + 1 ∨ readSequence + 1 ≠ record.sequence ∨
      stop - offset - HEADER_BYTES < record.payload.length) := by omega
  have line : pre ++ enc record ++ post = (pre ++ header record) ++ record.payload ++ post := by
    rw [enc, ← List.append_assoc pre]
  have start : offset + HEADER_BYTES = (pre ++ header record).length := by
    rw [List.length_append, header_length, at_]
  have payload := readPayload_cases (pre ++ header record) record.payload post start rfl record.payload.length
    cancel 0 (Nat.zero_le _) (by omega)
  rw [List.take_zero, ← line] at payload
  unfold readRecord
  simp only [if_neg room, head, bind, Except.bind, if_neg magic, sequence, size, if_neg whole, kind]
  obtain ⟨c, read, from_⟩ | ⟨e, error, cancelled⟩ := payload
  · simp only [read]
    obtain ⟨c', ok, _⟩ | ⟨e, error, cancelled⟩ := checkCancel_cases c
    · simp only [ok, kindOf_kindByte]
      exact .inl trivial
    · simp only [error]
      exact .inr ⟨e, rfl, from_ cancelled⟩
  · simp only [error]
    exact .inr ⟨e, rfl, cancelled⟩

/-! ### What a spool holds -/

/-- The sizes of the records on disk. -/
def weight (records : List Record) : Nat := (encs records).length

theorem weight_append (records : List Record) (record : Record) :
    weight (records ++ [record]) = weight records + (record.payload.length + HEADER_BYTES) := by
  rw [weight, encs_append, List.length_append, encs, encs, List.flatMap_singleton, enc_length, Nat.add_comm HEADER_BYTES]
  rfl

theorem length_le_weight (records : List Record) : records.length ≤ weight records := by
  induction records with
  | nil => exact Nat.zero_le _
  | cons record records ih =>
      have length := enc_length record
      have header : 0 < HEADER_BYTES := by decide
      unfold weight at ih ⊢
      rw [encs_cons, List.length_append, List.length_cons]
      omega

/-- The segments that are there: those from the head to the tail. -/
def Files (d : Spool) : Prop := ∀ k, (d.files k).isSome ↔ d.head ≤ k ∧ k ≤ d.tail

/-- What the segments from a number on hold, one after the other. -/
def Stored (files : Nat → Option Bytes) (number : Nat) (segments : List (List Record)) : Prop :=
  ∀ i segment, segments[i]? = some segment → files (number + i) = some (encs segment)

/-- A writable spool holds the records that were appended and counts those that were read. The segment at the head
begins with what was read of it. -/
structure Sound (d : Spool) (s : EventStore.Spool) : Prop where
  writable : d.poisoned = false
  accepted : d.accepted = s.records.length
  read : d.readSequence = s.read
  read_le : s.read ≤ s.records.length
  numbered : ∀ i record, s.records[i]? = some record → record.sequence = i + 1
  small : ∀ record ∈ s.records, record.sequence ≤ u64Max ∧ record.payload.length ≤ u64Max
  writer : d.writer = some d.tail
  reader : d.reader = none ∨ d.reader = some d.head
  tail_le : d.tail ≤ s.records.length
  tail_lt : d.tailCommitted ≠ 0 → d.tail < s.records.length
  committed : ∃ file, d.files d.tail = some file ∧ d.tailCommitted = file.length
  committed_le : d.tailCommitted ≤ weight s.records
  segments : ∃ before after rest, s.records.drop s.read = after ++ rest.flatten ∧
    d.tail = d.head + rest.length ∧ d.readOffset = (encs before).length ∧
    Stored d.files d.head ((before ++ after) :: rest)

theorem setFile_self (files : Nat → Option Bytes) (number : Nat) (file : Option Bytes) :
    setFile files number file number = file := if_pos rfl

variable {number : Nat} {file : Bytes} {d : Spool} {s s' : EventStore.Spool} {record : Record} {cancel : Cancel}

theorem setFile_other {files : Nat → Option Bytes} {n : Nat} {file : Option Bytes} (other : n ≠ number) :
    setFile files number file n = files n := if_neg other

/-- Why an append can fail. -/
def Refusable (s : EventStore.Spool) (record : Record) (cancel : Cancel) : Prop :=
  s.poisoned = true ∨ cancel.isSome ∨ record.sequence ≠ s.records.length + 1 ∨ u64Max < weight (s.records ++ [record])

theorem Stored.concat {files : Nat → Option Bytes} {segments : List (List Record)} (h : Stored files number segments)
    {n : Nat} (last : n = number + segments.length) {segment : List Record} (is : file = encs segment) :
    Stored (setFile files n (some file)) number (segments ++ [segment]) := by
  intro i other there
  by_cases old : i < segments.length
  · rw [List.getElem?_append_left old] at there
    rw [setFile_other (by omega)]
    exact h i other there
  · have lt := (List.getElem?_eq_some_iff.mp there).1
    rw [List.length_append, List.length_singleton] at lt
    have same : i = segments.length := by omega
    subst same
    rw [List.getElem?_concat_length] at there
    cases there
    rw [last, setFile_self, is]

/-- The files that there are when the tail is one more, or is written to. -/
theorem Files.set (files : Files d) {d' : Spool} (is : d'.files = setFile d.files number (some file))
    (range : ∀ k, d'.head ≤ k ∧ k ≤ d'.tail ↔ k = number ∨ d.head ≤ k ∧ k ≤ d.tail) : Files d' := by
  intro k
  rw [range, is]
  by_cases same : k = number
  · subst same
    rw [setFile_self]
    simp
  · rw [setFile_other same, files k]
    simp [same]

/-- After a record that did not fit, the next segment is the tail, and it is empty. -/
theorem rotate_cases (files : Files d) (sound : Sound d s) {stop : Nat} :
    (∃ d', d.rotate stop = (.ok (), d') ∧ Files d' ∧ Sound d' s) ∨
      ∃ e d', d.rotate stop = (.error e, d') ∧ Files d' ∧ u64Max < s.records.length := by
  obtain ⟨before, after, rest, unread, tail, offset, stored⟩ := sound.segments
  unfold Spool.rotate
  by_cases full : d.tailCommitted ≠ 0 ∧ SEGMENT_BYTES < stop
  · rw [if_pos full]
    have lt := sound.tail_lt full.1
    by_cases overflow : u64Max < d.tail + 1
    · rw [if_pos overflow]
      exact .inr ⟨_, d, rfl, files, by omega⟩
    · have free : d.files (d.tail + 1) = none := by
        rw [← Option.not_isSome_iff_eq_none, files]
        omega
      rw [if_neg overflow, newSegment, free]
      refine .inl ⟨_, rfl, ?_, ?_⟩
      · refine files.set rfl fun k => ?_
        dsimp only
        omega
      · refine ⟨sound.writable, sound.accepted, sound.read, sound.read_le, sound.numbered, sound.small, rfl, sound.reader, lt,
          fun none_ => absurd rfl none_, ⟨[], setFile_self _ _ _, rfl⟩, Nat.zero_le _,
          before, after, rest ++ [[]], ?_, ?_, offset, ?_⟩
        · rw [unread, List.flatten_append, List.flatten_singleton, List.append_nil]
        · dsimp only
          rw [tail, List.length_append, List.length_singleton, Nat.add_assoc]
        · refine stored.concat ?_ rfl
          rw [tail, List.length_cons]
          omega
  · rw [if_neg full]
    exact .inl ⟨d, rfl, files, sound⟩

/-- A record more in the last segment. -/
theorem Stored.write {files : Nat → Option Bytes} {head tail : Nat} {before after : List Record}
    {rest : List (List Record)} (h : Stored files head ((before ++ after) :: rest)) (last : tail = head + rest.length)
    {old : Bytes} (there : files tail = some old) (record : Record) :
    ∃ after' rest', after' ++ rest'.flatten = after ++ rest.flatten ++ [record] ∧ rest'.length = rest.length ∧
      Stored (setFile files tail (some (old ++ enc record))) head ((before ++ after') :: rest') := by
  have grown : ∀ segments : List (List Record), ∀ segment, Stored files head (segments ++ [segment]) →
      tail = head + segments.length →
      Stored (setFile files tail (some (old ++ enc record))) head (segments ++ [segment ++ [record]]) := by
    intro segments segment stored at_
    have is := stored segments.length segment (List.getElem?_concat_length)
    rw [← at_, there] at is
    have earlier : Stored files head segments := fun i other found =>
      stored i other (by rw [List.getElem?_append_left (List.getElem?_eq_some_iff.mp found).1]; exact found)
    refine earlier.concat at_ ?_
    rw [encs_append, Option.some.inj is, encs_cons, show encs [] = [] from rfl, List.append_nil]
  obtain rfl | ⟨init, segment, is⟩ := List.eq_nil_or_concat rest
  · refine ⟨after ++ [record], [], by simp, rfl, ?_⟩
    have one := grown [] (before ++ after) h last
    rw [List.append_assoc] at one
    exact one
  · rw [List.concat_eq_append] at is
    subst is
    refine ⟨after, init ++ [segment ++ [record]], by simp, by simp, ?_⟩
    refine grown ((before ++ after) :: init) segment h ?_
    rw [last, List.length_append, List.length_singleton, List.length_cons]

/-- What is written to the tail is committed when all of it is. -/
theorem write_cases (files : Files d) (sound : Sound d s) (next : record.sequence = s.records.length + 1)
    (numbered : record.sequence ≤ u64Max) (small : record.payload.length ≤ u64Max) (cancel : Cancel) :
    (∃ d', d.write record cancel = (.ok (), d') ∧ Files d' ∧
        Sound d' { s with records := s.records ++ [record] }) ∨
      ∃ e d', d.write record cancel = (.error e, d') ∧ Files d' ∧ cancel.isSome := by
  obtain ⟨before, after, rest, unread, tail, offset, stored⟩ := sound.segments
  obtain ⟨old, there, committed⟩ := sound.committed
  have still : ∀ k, d.head ≤ k ∧ k ≤ d.tail ↔ k = d.tail ∨ d.head ≤ k ∧ k ≤ d.tail := by
    intro k
    omega
  have pieces := @chunks_flatten IO_CHUNK (by decide) _ record.payload (Nat.le_refl _)
  unfold Spool.write
  rw [sound.writer]
  dsimp only
  rw [there, Option.getD_some]
  obtain ⟨c, written, from_⟩ | ⟨e, file, error, cancelled⟩ :=
    writePieces_cases (chunks IO_CHUNK record.payload.length record.payload) cancel (old ++ header record)
  · rw [written, pieces]
    dsimp only
    obtain ⟨c', ok, _⟩ | ⟨e, error, cancelled⟩ := checkCancel_cases c
    · rw [ok]
      have line : old ++ header record ++ record.payload = old ++ enc record := by rw [enc, List.append_assoc]
      have more := weight_append s.records record
      have long := enc_length record
      refine .inl ⟨_, rfl, files.set rfl still, ?_⟩
      have grown : (s.records ++ [record]).length = s.records.length + 1 := by
        rw [List.length_append, List.length_singleton]
      have le := sound.tail_le
      obtain ⟨after', rest', same, length, stored'⟩ := stored.write tail there record
      rw [← line] at stored'
      refine ⟨sound.writable, next.trans grown.symm, sound.read, ?_, ?_, ?_, rfl, sound.reader, ?_, fun _ => ?_,
        ⟨_, setFile_self _ _ _, ?_⟩, ?_, before, after', rest', ?_, ?_, offset, stored'⟩
      · exact Nat.le_trans sound.read_le (grown ▸ Nat.le_succ _)
      · intro i other found
        by_cases old : i < s.records.length
        · rw [List.getElem?_append_left old] at found
          exact sound.numbered i other found
        · have lt := (List.getElem?_eq_some_iff.mp found).1
          dsimp only at lt
          have same : i = s.records.length := by omega
          subst same
          rw [List.getElem?_concat_length] at found
          cases found
          exact next
      · intro other mem
        obtain old | new := List.mem_append.mp mem
        · exact sound.small other old
        · rw [List.mem_singleton.mp new]
          exact ⟨numbered, small⟩
      · dsimp only
        omega
      · dsimp only
        omega
      · rw [line, List.length_append, long, ← committed, Nat.add_comm HEADER_BYTES]
      · have heavy := sound.committed_le
        dsimp only
        omega
      · dsimp only
        rw [List.drop_append_of_le_length sound.read_le, unread, same]
      · rw [length]
        exact tail
    · rw [error]
      exact .inr ⟨e, _, rfl, files.set rfl still, from_ cancelled⟩
  · rw [error]
    exact .inr ⟨e, _, rfl, files.set rfl still, cancelled⟩

/-- An append adds its record, or it has a reason to fail. -/
theorem append_cases (files : Files d) (sound : s.poisoned = false → Sound d s) (poisoned : d.poisoned = s.poisoned)
    (record : Record) (cancel : Cancel) :
    (∃ d', d.append record cancel = (.ok (), d') ∧ s.poisoned = false ∧ record.sequence = s.records.length + 1 ∧
        Files d' ∧ d'.poisoned = false ∧ Sound d' { s with records := s.records ++ [record] }) ∨
      ∃ e d', d.append record cancel = (.error e, d') ∧ Refusable s record cancel ∧ Files d' ∧ d'.poisoned = true := by
  unfold Spool.append
  rw [poisoned]
  cases state : s.poisoned with
  | true =>
      rw [if_pos rfl]
      exact .inr ⟨_, d, rfl, .inl state, files, poisoned.trans state⟩
  | false =>
      have sound := sound state
      have heavy := weight_append s.records record
      have light := sound.committed_le
      have many := length_le_weight (s.records ++ [record])
      rw [List.length_append, List.length_singleton] at many
      have header : HEADER_BYTES = 32 := rfl
      rw [if_neg Bool.false_ne_true]
      suffices inner :
          (∃ d', d.appendInner record cancel = (.ok (), d') ∧ record.sequence = s.records.length + 1 ∧ Files d' ∧
              Sound d' { s with records := s.records ++ [record] }) ∨
            ∃ e d', d.appendInner record cancel = (.error e, d') ∧ Files d' ∧ Refusable s record cancel by
        obtain ⟨d', ok, next, files', sound'⟩ | ⟨e, d', error, files', why⟩ := inner
        · rw [ok]
          exact .inl ⟨d', rfl, rfl, next, files', sound'.writable, { sound' with }⟩
        · rw [error]
          exact .inr ⟨e, _, rfl, why, files', rfl⟩
      unfold Spool.appendInner
      obtain ⟨c, ok, from_⟩ | ⟨e, error, cancelled⟩ := checkCancel_cases cancel
      · rw [ok]
        dsimp only
        by_cases other : u64Max < d.accepted + 1 ∨ d.accepted + 1 ≠ record.sequence
        · rw [if_pos other]
          refine .inr ⟨_, d, rfl, files, ?_⟩
          rw [sound.accepted] at other
          obtain full | apart := other
          · exact .inr (.inr (.inr (by omega)))
          · exact .inr (.inr (.inl (Ne.symm apart)))
        · rw [if_neg other]
          rw [sound.accepted, not_or, not_not, not_lt] at other
          by_cases large : u64Max < record.payload.length + HEADER_BYTES
          · rw [if_pos large]
            exact .inr ⟨_, d, rfl, files, .inr (.inr (.inr (by omega)))⟩
          · rw [if_neg large]
            by_cases long : u64Max < d.tailCommitted + (record.payload.length + HEADER_BYTES)
            · rw [if_pos long]
              exact .inr ⟨_, d, rfl, files, .inr (.inr (.inr (by omega)))⟩
            · rw [if_neg long]
              obtain ⟨d', rotated, files', sound'⟩ | ⟨e, d', error, files', full⟩ := rotate_cases files sound
              · rw [rotated]
                dsimp only
                obtain ⟨d'', written, files'', sound''⟩ | ⟨e, d'', error, files'', cancelled⟩ :=
                  write_cases files' sound' other.2.symm (by omega) (by omega) c
                · exact .inl ⟨d'', written, other.2.symm, files'', sound''⟩
                · exact .inr ⟨e, d'', error, files'', .inr (.inl (from_ cancelled))⟩
              · rw [error]
                exact .inr ⟨e, d', rfl, files', .inr (.inr (.inr (by omega)))⟩
      · rw [error]
        exact .inr ⟨e, d, rfl, files, .inr (.inl cancelled)⟩

/-- The reader opens the segment at the head, or has it open. -/
theorem openReader_eq (sound : Sound d s) (there : d.files d.head = some file) :
    d.openReader = .ok (file, { d with reader := some d.head }) := by
  have number : d.reader.getD d.head = d.head := by
    obtain none_ | some_ := sound.reader
    · rw [none_, Option.getD_none]
    · rw [some_, Option.getD_some]
  unfold Spool.openReader
  simp only [number, there]

theorem Sound.opened (sound : Sound d s) : Sound { d with reader := some d.head } s :=
  { sound with reader := .inr rfl }

/-- What is committed of the segment at the head is all that it holds. -/
theorem stop_eq (sound : Sound d s) (there : d.files d.head = some file) :
    (if d.head = d.tail then d.tailCommitted else file.length) = file.length := by
  split
  · next same =>
    obtain ⟨last, is, committed⟩ := sound.committed
    rw [← same, there] at is
    rw [committed, Option.some.inj is]
  · rfl

/-- A record that stands at the reader's offset is read. -/
theorem turn_reads (files : Files d) (sound : Sound d s) {before after : List Record} {rest : List (List Record)}
    (unread : s.records.drop s.read = record :: after ++ rest.flatten) (tail : d.tail = d.head + rest.length)
    (offset : d.readOffset = (encs before).length)
    (stored : Stored d.files d.head ((before ++ record :: after) :: rest)) (fuel : Nat) (cancel : Cancel) :
    (∃ record d', d.turns fuel cancel = (.ok (some record), d') ∧ s.records[s.read]? = some record ∧ Files d' ∧
        Sound d' { s with read := s.read + 1 }) ∨
      ∃ e d', d.turns fuel cancel = (.error e, d') ∧ cancel.isSome ∧ Files d' ∧ Sound d' s := by
  have there : d.files d.head = some (encs (before ++ record :: after)) := stored 0 _ rfl
  have first : s.records[s.read]? = some record := by
    rw [← Nat.add_zero s.read, ← List.getElem?_drop, unread]
    rfl
  have lt := (List.getElem?_eq_some_iff.mp first).1
  have numbered := sound.numbered _ _ first
  obtain ⟨bound, small⟩ := sound.small record (List.mem_of_getElem? first)
  have line : encs (before ++ record :: after) = encs before ++ enc record ++ encs after := by
    rw [encs_append, encs_cons, List.append_assoc]
  have long := enc_length record
  have header : HEADER_BYTES = 32 := rfl
  have length : (encs (before ++ record :: after)).length =
      (encs before).length + (enc record).length + (encs after).length := by
    rw [line, List.length_append, List.length_append]
  have inside : ¬(d.readOffset = (encs (before ++ record :: after)).length ∧ d.head < d.tail) := by
    rw [length, offset]
    omega
  unfold Spool.turns
  obtain ⟨c, ok, from_⟩ | ⟨e, error, cancelled⟩ := checkCancel_cases cancel
  · simp only [ok, openReader_eq sound there, stop_eq sound there, if_neg inside]
    have found := @readRecord_cases (encs before) (encs after) record d.readOffset (encs (before ++ record :: after)).length
      d.readSequence c offset (by rw [length, offset]; omega)
      (numbered.trans (congrArg Nat.succ sound.read.symm)) bound small
    rw [← line] at found
    obtain read | ⟨e, error, cancelled⟩ := found
    · simp only [read]
      refine .inl ⟨record, _, rfl, first, files, ?_⟩
      refine ⟨sound.writable, sound.accepted, numbered, lt, sound.numbered, sound.small, sound.writer, .inr rfl,
        sound.tail_le, sound.tail_lt, sound.committed, sound.committed_le, before ++ [record], after, rest, ?_, tail,
        ?_, ?_⟩
      · dsimp only
        rw [← List.drop_drop, unread]
        rfl
      · dsimp only
        rw [offset, encs_append, List.length_append, encs_cons, show encs [] = [] from rfl, List.append_nil, long]
      · rw [List.append_assoc]
        exact stored
    · simp only [error]
      exact .inr ⟨e, _, rfl, from_ cancelled, files, sound.opened⟩
  · simp only [error]
    exact .inr ⟨e, d, rfl, cancelled, files, sound⟩

/-- A segment that has been read is left behind and deleted. -/
theorem past_segment (files : Files d) (sound : Sound d s) {before segment : List Record} {rest : List (List Record)}
    (unread : s.records.drop s.read = segment ++ rest.flatten) (tail : d.tail = d.head + (rest.length + 1))
    (stored : Stored d.files d.head (before :: segment :: rest)) :
    Files { d with reader := none, files := setFile d.files d.head none, head := d.head + 1, readOffset := 0 } ∧
      Sound { d with reader := none, files := setFile d.files d.head none, head := d.head + 1, readOffset := 0 } s := by
  refine ⟨fun k => ?_, sound.writable, sound.accepted, sound.read, sound.read_le, sound.numbered, sound.small,
    sound.writer, .inl rfl, sound.tail_le, sound.tail_lt, ?_, sound.committed_le, [], segment, rest, unread, ?_, rfl, ?_⟩
  · dsimp only
    by_cases same : k = d.head
    · rw [same, setFile_self]
      simp
    · rw [setFile_other same, files k]
      omega
  · obtain ⟨file, there, committed⟩ := sound.committed
    refine ⟨file, ?_, committed⟩
    dsimp only
    rw [setFile_other (by omega)]
    exact there
  · dsimp only
    omega
  · intro i other found
    have at_ := stored (i + 1) other found
    dsimp only
    rw [setFile_other (by omega), Nat.add_assoc, Nat.add_comm 1 i]
    exact at_

/-- The turns find the record that is to be read next, behind the segments that have been read. -/
theorem turns_cases (more : s.read < s.records.length) (fuel : Nat) :
    ∀ {d : Spool} (cancel : Cancel), Files d → Sound d s → d.tail - d.head ≤ fuel →
      (∃ record d', d.turns fuel cancel = (.ok (some record), d') ∧ s.records[s.read]? = some record ∧ Files d' ∧
          Sound d' { s with read := s.read + 1 }) ∨
        ∃ e d', d.turns fuel cancel = (.error e, d') ∧ cancel.isSome ∧ Files d' ∧ Sound d' s := by
  induction fuel with
  | zero =>
      intro d cancel files sound enough
      obtain ⟨before, after, rest, unread, tail, offset, stored⟩ := sound.segments
      have none_ : rest = [] := List.length_eq_zero_iff.mp (by omega)
      subst none_
      cases after with
      | nil =>
          have length := congrArg List.length unread
          simp only [List.length_drop, List.flatten_nil, List.append_nil, List.length_nil] at length
          omega
      | cons record after => exact turn_reads files sound unread tail offset stored 0 cancel
  | succ fuel ih =>
      intro d cancel files sound enough
      obtain ⟨before, after, rest, unread, tail, offset, stored⟩ := sound.segments
      cases after with
      | cons record after => exact turn_reads files sound unread tail offset stored (fuel + 1) cancel
      | nil =>
          rw [List.append_nil] at stored
          cases rest with
          | nil =>
              have length := congrArg List.length unread
              simp only [List.length_drop, List.flatten_nil, List.append_nil, List.length_nil] at length
              omega
          | cons segment rest =>
              rw [List.nil_append, List.flatten_cons] at unread
              have there : d.files d.head = some (encs before) := stored 0 _ rfl
              rw [List.length_cons] at tail
              obtain ⟨files', sound'⟩ := past_segment files sound unread tail stored
              have past : d.readOffset = (encs before).length ∧ d.head < d.tail := ⟨offset, by omega⟩
              unfold Spool.turns
              obtain ⟨c, ok, from_⟩ | ⟨e, error, cancelled⟩ := checkCancel_cases cancel
              · simp only [ok, openReader_eq sound there, stop_eq sound there, if_pos past]
                obtain found | ⟨e, d', error, cancelled, on⟩ := ih c files' sound' (by dsimp only; omega)
                · exact .inl found
                · exact .inr ⟨e, d', error, from_ cancelled, on⟩
              · simp only [error]
                exact .inr ⟨e, d, rfl, cancelled, files, sound⟩

/-! ### Every run of calls -/

inductive Call where
  | append (record : Record)
  | next

/-- What a call returns; an append returns no record. -/
abbrev Reply := Except String (Option Record)

def Spool.serve (d : Spool) (cancel : Cancel) : Call → Reply × Spool
  | .append record =>
      match d.append record cancel with
      | (.ok (), d) => (.ok none, d)
      | (.error e, d) => (.error e, d)
  | .next => d.next cancel

/-- The calls one after the other, each cancelled where it is. -/
def Spool.serveAll : Spool → List (Call × Cancel) → List Reply × Spool
  | d, [] => ([], d)
  | d, (call, cancel) :: calls =>
      let (reply, d) := d.serve cancel call
      let (replies, d) := d.serveAll calls
      (reply :: replies, d)

/-- How the queue answers. A failed append leaves it poisoned, a failed read leaves it as it was. -/
inductive Serves (cancel : Cancel) (s : EventStore.Spool) : Call → Reply → EventStore.Spool → Prop
  | appended {record : Record} {s' : EventStore.Spool} (is : s.append record none = .ok s') :
      Serves cancel s (.append record) (.ok none) s'
  | refused {record : Record} {e} (why : Refusable s record cancel) :
      Serves cancel s (.append record) (.error e) { s with poisoned := true }
  | returned {record : Record} {s' : EventStore.Spool} (is : s.next none = .ok (some (record, s'))) :
      Serves cancel s .next (.ok (some record)) s'
  | caughtUp (is : s.next none = .ok none) : Serves cancel s .next (.ok none) s
  | failed {e} (why : s.poisoned = true ∨ cancel.isSome) : Serves cancel s .next (.error e) s

inductive Served : EventStore.Spool → List (Call × Cancel) → List Reply → EventStore.Spool → Prop
  | nil {s : EventStore.Spool} : Served s [] [] s
  | cons {s s' s'' : EventStore.Spool} {call} {cancel : Cancel} {reply calls replies}
      (first : Serves cancel s call reply s') (rest : Served s' calls replies s'') : Served s ((call, cancel) :: calls) (reply :: replies) s''

/-- The disk holds what the queue does, as long as it is not poisoned. -/
structure Holds (d : Spool) (s : EventStore.Spool) : Prop where
  files : Files d
  poisoned : d.poisoned = s.poisoned
  sound : s.poisoned = false → Sound d s

theorem Holds.create : Holds Spool.create ⟨[], 0, false⟩ where
  files := by
    intro k
    by_cases zero : k = 0
    · rw [zero]
      decide
    · have none_ : Spool.create.files k = none := if_neg zero
      rw [none_]
      exact ⟨nofun, fun ⟨_, le⟩ => absurd (Nat.le_zero.mp le) zero⟩
  poisoned := rfl
  sound := fun _ => ⟨rfl, rfl, rfl, Nat.le_refl _, nofun, nofun, rfl, .inl rfl, Nat.le_refl _, fun more => absurd rfl more,
    ⟨[], rfl, rfl⟩, Nat.le_refl _, [], [], [], rfl, rfl, rfl, fun i segment found => by
      cases i with
      | zero =>
          cases found
          rfl
      | succ i => cases found⟩

/-- A call answers as the queue does, and the disk holds what that makes of the queue. -/
theorem Holds.serve (h : Holds d s) (cancel : Cancel) (call : Call) :
    ∃ s', Serves cancel s call (d.serve cancel call).1 s' ∧ Holds (d.serve cancel call).2 s' := by
  cases call with
  | append record =>
      simp only [Spool.serve]
      obtain ⟨d', ok, writable, next, files, poisoned, sound⟩ | ⟨e, d', error, why, files, poisoned⟩ :=
        append_cases h.files h.sound h.poisoned record cancel
      · rw [ok]
        refine ⟨{ s with records := s.records ++ [record] }, .appended ?_, files, poisoned.trans writable.symm,
          fun _ => sound⟩
        unfold EventStore.Spool.append
        rw [if_neg (Bool.not_eq_true _ ▸ writable), if_neg (not_not.mpr next.symm)]
      · rw [error]
        exact ⟨_, .refused why, files, poisoned, nofun⟩
  | next =>
      unfold Spool.serve Spool.next
      obtain ⟨c, ok, from_⟩ | ⟨e, error, cancelled⟩ := checkCancel_cases cancel
      · simp only [ok, h.poisoned]
        cases state : s.poisoned with
        | true => exact ⟨s, .failed (.inl state), h⟩
        | false =>
            have sound := h.sound state
            have le := sound.read_le
            simp only [Bool.false_eq_true, if_false, sound.read, sound.accepted]
            by_cases all : s.read = s.records.length
            · rw [if_pos all]
              refine ⟨s, .caughtUp ?_, h⟩
              unfold EventStore.Spool.next
              rw [state, if_neg Bool.false_ne_true, List.getElem?_eq_none_iff.mpr all.ge]
            · rw [if_neg all]
              obtain ⟨record, d', turned, first, files, sound'⟩ | ⟨e, d', error, cancelled, files, sound'⟩ :=
                turns_cases (by omega) (d.tail - d.head) c h.files sound (Nat.le_refl _)
              · rw [turned]
                refine ⟨{ s with read := s.read + 1 }, .returned ?_, files, sound'.writable.trans state.symm,
                  fun _ => sound'⟩
                unfold EventStore.Spool.next
                rw [if_neg (Bool.not_eq_true _ ▸ state), first]
              · rw [error]
                exact ⟨s, .failed (.inr (from_ cancelled)), files, sound'.writable.trans state.symm, fun _ => sound'⟩
      · simp only [error]
        exact ⟨s, .failed (.inr cancelled), h⟩

theorem Holds.serveAll (h : Holds d s) (calls : List (Call × Cancel)) :
    ∃ s', Served s calls (d.serveAll calls).1 s' ∧ Holds (d.serveAll calls).2 s' := by
  induction calls generalizing d s with
  | nil => exact ⟨s, .nil, h⟩
  | cons first calls ih =>
      obtain ⟨call, cancel⟩ := first
      obtain ⟨s', serves, holds⟩ := h.serve cancel call
      obtain ⟨s'', served, holds⟩ := ih holds
      exact ⟨s'', .cons serves served, holds⟩

/-- The records that are returned, in turn. -/
def given (replies : List Reply) : List Record :=
  replies.filterMap fun
    | .ok record => record
    | .error _ => none

/-- The records whose append succeeded, in turn. -/
def accepted (calls : List (Call × Cancel)) (replies : List Reply) : List Record :=
  (calls.zip replies).filterMap fun
    | ((.append record, _), .ok _) => some record
    | _ => none

/-- One call gives the next record, or takes one more, or neither. -/
theorem Serves.exact {call : Call} {reply : Reply} (h : Serves cancel s call reply s')
    (le : s.read ≤ s.records.length) :
    s'.read ≤ s'.records.length ∧ s'.records = s.records ++ accepted [(call, cancel)] [reply] ∧
      s'.records.take s'.read = s.records.take s.read ++ given [reply] := by
  cases h with
  | @appended record _ is =>
      unfold EventStore.Spool.append at is
      split at is
      · cases is
      · split at is
        · cases is
        · cases is
          refine ⟨?_, rfl, ?_⟩
          · rw [List.length_append]
            exact Nat.le_trans le (Nat.le_add_right _ _)
          · change _ = _ ++ []
            rw [List.append_nil]
            exact List.take_append_of_le_length le
  | refused => exact ⟨le, (List.append_nil _).symm, (List.append_nil _).symm⟩
  | @returned record _ is =>
      unfold EventStore.Spool.next at is
      split at is
      · cases is
      · split at is
        · cases is
        · rename_i found
          cases is
          have lt := (List.getElem?_eq_some_iff.mp found).1
          refine ⟨lt, (List.append_nil _).symm, ?_⟩
          dsimp only
          rw [List.take_add_one, found]
          rfl
  | caughtUp | failed => exact ⟨le, (List.append_nil _).symm, (List.append_nil _).symm⟩

theorem accepted_cons (call : Call × Cancel) (reply : Reply) (calls : List (Call × Cancel)) (replies : List Reply) :
    accepted (call :: calls) (reply :: replies) = accepted [call] [reply] ++ accepted calls replies := by
  unfold accepted
  rw [List.zip_cons_cons, List.zip_cons_cons, ← List.singleton_append, List.filterMap_append]
  rfl

theorem given_cons (reply : Reply) (replies : List Reply) : given (reply :: replies) = given [reply] ++ given replies := by
  unfold given
  rw [← List.singleton_append, List.filterMap_append]

/-- A queue gives what it was given, in that order and each once. -/
theorem Served.exact {calls : List (Call × Cancel)} {replies : List Reply} (h : Served s calls replies s')
    (le : s.read ≤ s.records.length) :
    s'.read ≤ s'.records.length ∧ s'.records = s.records ++ accepted calls replies ∧
      s'.records.take s'.read = s.records.take s.read ++ given replies := by
  induction h with
  | nil => exact ⟨le, (List.append_nil _).symm, (List.append_nil _).symm⟩
  | @cons s s' s'' call cancel reply calls replies first _ ih =>
      obtain ⟨le', records, read⟩ := first.exact le
      obtain ⟨le'', records', read'⟩ := ih le'
      refine ⟨le'', ?_, ?_⟩
      · rw [records', records, accepted_cons _ _ calls, List.append_assoc]
      · rw [read', read, given_cons reply replies, List.append_assoc]

/-- Some append failed. -/
def Spoiled (calls : List (Call × Cancel)) (replies : List Reply) : Prop :=
  ∃ record cancel e, ((Call.append record, cancel), Except.error e) ∈ calls.zip replies

/-- A queue is poisoned by a failed append and by nothing else. -/
theorem Served.poisoned {calls : List (Call × Cancel)} {replies : List Reply} (h : Served s calls replies s') :
    s'.poisoned = true ↔ s.poisoned = true ∨ Spoiled calls replies := by
  induction h with
  | nil => exact ⟨.inl, fun bad => bad.resolve_right fun ⟨_, _, _, found⟩ => absurd found List.not_mem_nil⟩
  | @cons s s' s'' call cancel reply calls replies first _ ih =>
      have step : s'.poisoned = true ↔ s.poisoned = true ∨ Spoiled [(call, cancel)] [reply] := by
        have kept (ok : ∀ record e, call = .append record → reply ≠ .error e) : ¬ Spoiled [(call, cancel)] [reply] := by
          rintro ⟨record, _, e, found⟩
          cases List.mem_singleton.mp found
          exact ok record e rfl rfl
        cases first with
        | @appended record s' is =>
            unfold EventStore.Spool.append at is
            split at is
            · cases is
            · split at is
              · cases is
              · cases is
                exact ⟨.inl, fun bad => bad.resolve_right (kept nofun)⟩
        | @refused record e _ => exact ⟨fun _ => .inr ⟨record, cancel, e, List.mem_singleton.mpr rfl⟩, fun _ => rfl⟩
        | @returned record s' is =>
            unfold EventStore.Spool.next at is
            split at is
            · cases is
            · split at is
              · cases is
              · cases is
                exact ⟨.inl, fun bad => bad.resolve_right (kept nofun)⟩
        | caughtUp | failed => exact ⟨.inl, fun bad => bad.resolve_right (kept nofun)⟩
      rw [ih, step, or_assoc]
      refine or_congr_right ⟨?_, ?_⟩
      · rintro (⟨record, at_, e, found⟩ | ⟨record, at_, e, found⟩)
        · cases List.mem_singleton.mp found
          exact ⟨record, cancel, e, .head _⟩
        · exact ⟨record, at_, e, .tail _ found⟩
      · rintro ⟨record, at_, e, found⟩
        obtain same | found := List.mem_cons.mp found
        · cases same
          exact .inl ⟨record, cancel, e, List.mem_singleton.mpr rfl⟩
        · exact .inr ⟨record, at_, e, found⟩

/-- The read that nothing cancels gives the oldest record that was not given, if there is one. -/
theorem Holds.next {d : Spool} {s : EventStore.Spool} (h : Holds d s) (fine : s.poisoned = false) :
    (d.next none).1 = .ok s.records[s.read]? := by
  obtain ⟨s', serves, _⟩ := h.serve none .next
  change Serves none s .next (d.next none).1 s' at serves
  generalize (d.next none).1 = reply at serves ⊢
  cases serves with
  | @returned record _ is =>
      unfold EventStore.Spool.next at is
      rw [if_neg (Bool.not_eq_true _ ▸ fine)] at is
      split at is
      · cases is
      · rename_i found
        cases is
        rw [found]
  | caughtUp is =>
      unfold EventStore.Spool.next at is
      rw [if_neg (Bool.not_eq_true _ ▸ fine)] at is
      split at is
      · rename_i found
        rw [found]
      · cases is
  | failed why =>
      rw [fine] at why
      obtain why | why := why <;> cases why

/-- A read that fails was cancelled or comes after a failed append, and leaves the queue as it was. -/
theorem Holds.next_error (h : Holds d s) {e : String} (error : (d.next cancel).1 = .error e) :
    (s.poisoned = true ∨ cancel.isSome) ∧ Holds (d.next cancel).2 s := by
  obtain ⟨s', serves, holds⟩ := h.serve cancel .next
  change Serves cancel s .next (d.next cancel).1 s' at serves
  change Holds (d.next cancel).2 s' at holds
  rw [error] at serves
  cases serves with
  | failed why => exact ⟨why, holds⟩

/-- A read of a queue in which an append failed fails. -/
theorem Holds.next_poisoned (h : Holds d s) (bad : s.poisoned = true) (cancel : Cancel) :
    ∃ e, (d.next cancel).1 = .error e := by
  unfold Spool.next
  split
  · exact ⟨_, rfl⟩
  · rw [h.poisoned, if_pos bad]
    exact ⟨_, rfl⟩

/-- An append fails only after another failed, when it is cancelled, out of turn, or past the sizes that have a number. -/
theorem Holds.append_error (h : Holds d s) {e : String} (error : (d.append record cancel).1 = .error e) :
    Refusable s record cancel := by
  obtain ⟨d', ok, _⟩ | ⟨e, d', _, why, _⟩ := append_cases h.files h.sound h.poisoned record cancel
  · rw [ok] at error
    cases error
  · exact why

/-- The spool is a queue, whatever its calls are and wherever they are cancelled: what was returned is what was taken, in
that order and each once, the next read returns the oldest record that was not returned, a read that fails changes nothing,
nothing is returned after a failed append, and the files are those of the segments that are still to be read. -/
theorem spool_is_fifo (calls : List (Call × Cancel)) :
    let replies := (Spool.create.serveAll calls).1
    let d := (Spool.create.serveAll calls).2
    given replies <+: accepted calls replies ∧
      (¬ Spoiled calls replies → (d.next none).1 = .ok (accepted calls replies)[(given replies).length]?) ∧
      (∀ cancel e, (d.next cancel).1 = .error e →
        (Spoiled calls replies ∨ cancel.isSome) ∧ ((d.next cancel).2.next none).1 = (d.next none).1) ∧
      (Spoiled calls replies → ∀ cancel, ∃ e, (d.next cancel).1 = .error e) ∧
      (∀ record cancel e, (d.append record cancel).1 = .error e →
        Spoiled calls replies ∨ cancel.isSome ∨ record.sequence ≠ (accepted calls replies).length + 1 ∨
          u64Max < weight (accepted calls replies ++ [record])) ∧
      ∀ k, (d.files k).isSome = true ↔ d.head ≤ k ∧ k ≤ d.tail := by
  intro replies d
  obtain ⟨s, served, holds⟩ := Holds.create.serveAll calls
  obtain ⟨le, records, read⟩ := served.exact (Nat.le_refl _)
  rw [List.nil_append] at records
  rw [List.take_nil, List.nil_append, records] at read
  have length : (given replies).length = s.read := by
    change (given (Spool.create.serveAll calls).1).length = s.read
    rw [← read, List.length_take, ← records]
    exact Nat.min_eq_left le
  have poisoned : s.poisoned = true ↔ Spoiled calls replies :=
    served.poisoned.trans (or_iff_right Bool.false_ne_true)
  refine ⟨?_, fun fine => ?_, fun cancel e error => ?_, fun bad cancel => ?_, fun record cancel e error => ?_, holds.files⟩
  · change given (Spool.create.serveAll calls).1 <+: _
    rw [← read]
    exact List.take_prefix _ _
  · rw [holds.next (Bool.eq_false_iff.mpr (mt poisoned.mp fine)), records, length]
  · obtain ⟨why, after⟩ := holds.next_error error
    refine ⟨why.imp_left poisoned.mp, ?_⟩
    cases state : s.poisoned with
    | false => rw [after.next state, holds.next state]
    | true =>
        have fails {d : Spool} (h : Holds d s) : (d.next none).1 = .error "event store writer is poisoned" := by
          unfold Spool.next
          split
          · rename_i error
            cases error
          · rw [h.poisoned, if_pos state]
        rw [fails after, fails holds]
  · exact holds.next_poisoned (poisoned.mpr bad) cancel
  · have why := holds.append_error error
    unfold Refusable at why
    rw [poisoned, records] at why
    exact why

end Khor.Acp.EventStore.Disk
