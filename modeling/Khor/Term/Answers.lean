/-
Module: Khor.Term.Answers
Purpose: The host's ledger of what a program asked its terminal (crates/node/src/answers.rs): the questions in its output,
  the answers faces give in their input, and those the host gives when no face does. An answer that reaches the program
  is that of one question, asked before, of its kind, not too old, and answered once.
Trusted boundary: none
Main exports: sequence, Kind, Ledger, takeInput_thins, answers_settle
-/
import Khor.Lib.Settling
import Khor.Term.Modes

namespace Khor.Term.Answers

/-! ### Sequences -/

/-- Moments and times are in nanoseconds. -/
def ANSWER_MAX_AGE : Nat := 2000000000

def FALLBACK_AFTER : Nat := 150000000

def TAIL_MAX : Nat := 256

inductive Kind where
  | da1
  | da2
  | dsr5
  | colour (ps : Nat)
  | decrqss
  | decrqm
  | kittyFlags
  | window (n : Nat)
deriving DecidableEq

/-- One escape sequence: a CSI, or an OSC or DCS with its body. -/
inductive Seq where
  | csi (params inter : Bytes) (fin : UInt8)
  | string (kind : UInt8) (body : Bytes)

def between (lo hi b : UInt8) : Bool := decide (lo ≤ b) && decide (b ≤ hi)

/-- `str::parse::<u16>`. -/
def parseU16 (text : Bytes) : Option Nat :=
  let digits := if text.head? = some '+'.toUInt8 then text.tail else text
  if digits ≠ [] ∧ digits.all (between '0'.toUInt8 '9'.toUInt8) then
    let n := digits.foldl (fun n b => 10 * n + (b.toNat - '0'.toNat)) 0
    if n < 65536 then some n else none
  else none

/-- The body of a string, to BEL (of an OSC only) or ST, and how long it is with its end. -/
def stringEnd (kind : UInt8) : Bytes → Option (Bytes × Nat)
  | [] => none
  | b :: rest =>
      if kind = ']'.toUInt8 ∧ b = 0x07 then some ([], 1)
      else if b = ESC then if rest.head? = some '\\'.toUInt8 then some ([], 2) else none
      else (stringEnd kind rest).map fun ended => (b :: ended.1, ended.2 + 1)

/-- One escape sequence at the start, and how long it is. -/
def sequence : Bytes → Option (Seq × Nat)
  | esc :: kind :: rest =>
      if esc ≠ ESC then none
      else if kind = '['.toUInt8 then
        let params := rest.takeWhile (between 0x30 0x3f)
        let inter := (rest.drop params.length).takeWhile (between 0x20 0x2f)
        match rest.drop (params.length + inter.length) with
        | [] => none
        | fin :: _ =>
            if between 0x40 0x7e fin then some (.csi params inter fin, params.length + inter.length + 3) else none
      else if kind = ']'.toUInt8 ∨ kind = 'P'.toUInt8 then
        (stringEnd kind rest).map fun ended => (.string kind ended.1, ended.2 + 2)
      else none
  | _ => none

def firstParam (params : Bytes) : Option Nat := parseU16 (params.takeWhile (· != ';'.toUInt8))

def splitPs (body : Bytes) : Option (Nat × Bytes) := do
  let semi ← body.findIdx? (· == ';'.toUInt8)
  let ps ← parseU16 (body.take semi)
  some (ps, body.drop (semi + 1))

def windowAnswer : Nat → Option Nat
  | 13 => some 3
  | 14 => some 4
  | 16 => some 6
  | 18 => some 8
  | 19 => some 9
  | _ => none

def bytesOf (text : String) : Bytes := text.toList.map Char.toUInt8

/-- The question a sequence of a program's output asks. -/
def question : Seq → Option Kind
  | .csi params inter fin =>
      if fin = 'c'.toUInt8 ∧ inter = [] ∧ (params = [] ∨ params = bytesOf "0") then some .da1
      else if fin = 'c'.toUInt8 ∧ inter = [] ∧ params.head? = some '>'.toUInt8 then some .da2
      else if fin = 'n'.toUInt8 ∧ inter = [] ∧ params = bytesOf "5" then some .dsr5
      else if fin = 'p'.toUInt8 ∧ inter = bytesOf "$" then some .decrqm
      else if fin = 'u'.toUInt8 ∧ inter = [] ∧ params = bytesOf "?" then some .kittyFlags
      else if fin = 't'.toUInt8 ∧ inter = [] then ((firstParam params).bind windowAnswer).map .window
      else none
  | .string kind body =>
      if kind = ']'.toUInt8 then do
        let (ps, rest) ← splitPs body
        if 10 ≤ ps ∧ ps ≤ 12 ∧ rest = bytesOf "?" then some (.colour ps)
        else if ps = 4 ∧ bytesOf ";?" <:+ rest then some (.colour 4)
        else none
      else if kind = 'P'.toUInt8 ∧ bytesOf "$q" <+: body then some .decrqss
      else none

/-- The answer a sequence of a face's input is. -/
def answer : Seq → Option Kind
  | .csi params inter fin =>
      if fin = 'c'.toUInt8 ∧ inter = [] ∧ params.head? = some '?'.toUInt8 then some .da1
      else if fin = 'c'.toUInt8 ∧ inter = [] ∧ params.head? = some '>'.toUInt8 then some .da2
      else if fin = 'n'.toUInt8 ∧ inter = [] ∧ (params = bytesOf "0" ∨ params = bytesOf "3") then some .dsr5
      else if fin = 'y'.toUInt8 ∧ inter = bytesOf "$" then some .decrqm
      else if fin = 'u'.toUInt8 ∧ inter = [] ∧ 1 < params.length ∧ params.head? = some '?'.toUInt8 ∧
          params.tail.all (between '0'.toUInt8 '9'.toUInt8) then some .kittyFlags
      else if fin = 't'.toUInt8 ∧ inter = [] ∧ params.count ';'.toUInt8 = 2 then
        (firstParam params).bind fun n => if n ∈ [3, 4, 6, 8, 9] then some (.window n) else none
      else none
  | .string kind body =>
      if kind = ']'.toUInt8 then do
        let (ps, rest) ← splitPs body
        if (10 ≤ ps ∧ ps ≤ 12 ∨ ps = 4) ∧ rest ≠ bytesOf "?" then some (.colour ps) else none
      else if kind = 'P'.toUInt8 ∧ (bytesOf "1$r" <+: body ∨ bytesOf "0$r" <+: body) then some .decrqss
      else none

/-- The bytes of a character by its first. -/
def charLength (lead : UInt8) : Nat :=
  if between 0xc0 0xdf lead then 2 else if between 0xe0 0xef lead then 3 else 1

/-- Three characters from `at_` on. -/
def threeChars (bytes : Bytes) (at_ : Nat) : Option Nat := do
  let at_ := at_ + charLength (← bytes[at_]?)
  let at_ := at_ + charLength (← bytes[at_]?)
  some (at_ + charLength (← bytes[at_]?))

/-- A mouse event, or else a focus change, and the length of the whole report. -/
def report (bytes : Bytes) (s : Seq) (n : Nat) : Option (Bool × Nat) :=
  match s with
  | .string _ _ => none
  | .csi params inter fin =>
      if inter ≠ [] then none
      else if (fin = 'M'.toUInt8 ∨ fin = 'm'.toUInt8) ∧ params.head? = some '<'.toUInt8 then some (true, n)
      else if fin = 'M'.toUInt8 ∧ params = [] then do
        let at_ ← threeChars bytes n
        if at_ ≤ bytes.length then some (true, at_) else none
      else if fin = 'M'.toUInt8 ∧ params.count ';'.toUInt8 = 2 ∧
          params.all (fun c => between '0'.toUInt8 '9'.toUInt8 c || c == ';'.toUInt8) then some (true, n)
      else if (fin = 'I'.toUInt8 ∨ fin = 'O'.toUInt8) ∧ params = [] then some (false, n)
      else none

/-- It could still become a sequence. -/
def unfinished : Bytes → Bool
  | _ :: kind :: rest =>
      if kind = '['.toUInt8 then rest.all (between 0x20 0x3f)
      else if kind = ']'.toUInt8 ∨ kind = 'P'.toUInt8 then
        !rest.contains 0x07 && !decide ([ESC, '\\'.toUInt8] <:+: rest)
      else false
  | _ => true

/-! ### The ledger -/

/-- Questions wait with the moment they were asked. -/
structure Ledger where
  pending : List (Kind × Nat)
  tail : Bytes
  colours : Nat → Option Bytes
  modes : Modes
  droppedMouse : Nat
  droppedFocus : Nat

def Ledger.fresh : Ledger := ⟨[], [], fun _ => none, .fresh, 0, 0⟩

def expire (now : Nat) (pending : List (Kind × Nat)) : List (Kind × Nat) :=
  pending.filter fun q => now - q.2 ≤ ANSWER_MAX_AGE

/-- The questions of an output, and the end of it that is not finished; the first `skip` bytes are of the sequence before. -/
def questions : (skip : Nat) → Bytes → List Kind × Bytes
  | _, [] => ([], [])
  | skip + 1, _ :: rest => questions skip rest
  | 0, b :: rest =>
      if b ≠ ESC then questions 0 rest
      else
        match sequence (b :: rest) with
        | some (s, n) =>
            let more := questions (n - 1) rest
            ((question s).toList ++ more.1, more.2)
        | none => if (b :: rest).length ≤ TAIL_MAX ∧ unfinished (b :: rest) then ([], b :: rest) else questions 0 rest

def sawOutput (l : Ledger) (bytes : Bytes) (now : Nat) : Ledger :=
  let seen := questions 0 (l.tail ++ bytes)
  { l with
    modes := l.modes.feed bytes
    pending := expire now (l.pending ++ seen.1.map fun k => (k, now))
    tail := seen.2 }

/-- What becomes of a piece of a face's input: a byte that goes on, a report the program asked for or one it did not, an
answer, to the first question of its kind that is pending or to none. -/
inductive Taken where
  | typed (b : UInt8)
  | wanted (bytes : Bytes)
  | unwanted (mouse : Bool) (bytes : Bytes)
  | settled (q : Kind × Nat) (bytes : Bytes)
  | late (k : Kind) (bytes : Bytes)

/-- The input it stands for. -/
def Taken.read : Taken → Bytes
  | .typed b => [b]
  | .wanted bytes | .unwanted _ bytes | .settled _ bytes | .late _ bytes => bytes

/-- What of it reaches the program. -/
def Taken.sent : Taken → Bytes
  | .typed b => [b]
  | .wanted bytes | .settled _ bytes => bytes
  | .unwanted _ _ | .late _ _ => []

/-- A mouse tracking mode is on. -/
def Ledger.mouseOn (l : Ledger) : Bool := [9, 1000, 1002, 1003].any l.modes.isSet

def Ledger.asks (l : Ledger) (mouse : Bool) : Bool := if mouse then l.mouseOn else l.modes.isSet 1004

/-- The first piece of an input that begins with `b`. -/
def takeOne (l : Ledger) (b : UInt8) (rest : Bytes) : Taken × Ledger :=
  match sequence (b :: rest) with
  | none => (.typed b, l)
  | some (s, n) =>
      match report (b :: rest) s n with
      | some (mouse, len) =>
          if l.asks mouse then (.wanted ((b :: rest).take len), l)
          else (.unwanted mouse ((b :: rest).take len),
            if mouse then { l with droppedMouse := l.droppedMouse + 1 } else { l with droppedFocus := l.droppedFocus + 1 })
      | none =>
          match answer s with
          | none => (.typed b, l)
          | some k =>
              match l.pending.find? fun q => q.1 == k with
              | some q =>
                  let l := { l with pending := l.pending.eraseP fun q => q.1 == k }
                  (.settled q ((b :: rest).take n),
                    match k with
                    | .colour ps => { l with colours := Function.update l.colours ps (some ((b :: rest).take n)) }
                    | _ => l)
              | none => (.late k ((b :: rest).take n), l)

/-- The pieces of an input; the first `skip` bytes are of the piece before. -/
def takeFrom (l : Ledger) : (skip : Nat) → Bytes → List Taken × Ledger
  | _, [] => ([], l)
  | skip + 1, _ :: rest => takeFrom l skip rest
  | 0, b :: rest =>
      let one := takeOne l b rest
      let more := takeFrom one.2 (one.1.read.length - 1) rest
      (one.1 :: more.1, more.2)

def pieces (l : Ledger) (bytes : Bytes) (now : Nat) : List Taken × Ledger :=
  takeFrom { l with pending := expire now l.pending } 0 bytes

/-- `Ledger::take_input`. -/
def takeInput (l : Ledger) (bytes : Bytes) (now : Nat) : Bytes × Ledger :=
  let taken := pieces l bytes now
  (taken.1.flatMap Taken.sent, taken.2)

/-- The host's own answer to a question. -/
def Ledger.own (l : Ledger) : Kind → Option Bytes
  | .da1 => some (ESC :: bytesOf "[?1;2c")
  | .da2 => some (ESC :: bytesOf "[>0;276;0c")
  | .dsr5 => some (ESC :: bytesOf "[0n")
  | .colour ps => l.colours ps
  | .decrqss | .decrqm | .kittyFlags | .window _ => none

/-- The questions the host answers itself by now, with its answers, and those it keeps. -/
def spoken (l : Ledger) (now : Nat) : List (Kind × Nat) → List ((Kind × Nat) × Bytes) × List (Kind × Nat)
  | [] => ([], [])
  | q :: rest =>
      let more := spoken l now rest
      if now - q.2 < FALLBACK_AFTER then (more.1, q :: more.2)
      else
        match l.own q.1 with
        | some a => ((q, a) :: more.1, more.2)
        | none => (more.1, q :: more.2)

/-- `Ledger::fallback`. -/
def fallback (l : Ledger) (now : Nat) : Bytes × Ledger :=
  let said := spoken l now (expire now l.pending)
  (said.1.flatMap Prod.snd, { l with pending := said.2 })

/-! ### Runs -/

/-- An answer that reached the program, from a face or from the host. -/
structure Reply where
  at_ : Nat
  bytes : Bytes
  host : Bool

/-- It answers the question: one sequence is the answer of that kind, the question is not too old, and the host waited for
the faces before it answered with its own. -/
def Fits (r : Reply) (q : Kind × Nat) : Prop :=
  r.at_ - q.2 ≤ ANSWER_MAX_AGE ∧ if r.host then FALLBACK_AFTER ≤ r.at_ - q.2
    else ∃ input s n, sequence input = some (s, n) ∧ r.bytes = input.take n ∧ answer s = some q.1

abbrev Log := List (Settling.Entry (Kind × Nat) Reply)

/-- The program writes, a face types, or nobody has answered for a while. -/
inductive Event where
  | output (bytes : Bytes)
  | input (bytes : Bytes)
  | silence

def Taken.reply (now : Nat) : Taken → Option (Settling.Entry (Kind × Nat) Reply)
  | .settled q bytes => some (.replied ⟨now, bytes, false⟩ q)
  | _ => none

/-- What an event makes of the ledger, and what is asked and answered in it. -/
def step (l : Ledger) (now : Nat) : Event → Ledger × Log
  | .output bytes => (sawOutput l bytes now, (questions 0 (l.tail ++ bytes)).1.map fun k => .asked (k, now))
  | .input bytes => ((takeInput l bytes now).2, (pieces l bytes now).1.filterMap (Taken.reply now))
  | .silence =>
      ((fallback l now).2, (spoken l now (expire now l.pending)).1.map fun a => .replied ⟨now, a.2, true⟩ a.1)

def run (l : Ledger) (log : Log) : List (Event × Nat) → Ledger × Log
  | [] => (l, log)
  | (e, now) :: rest => run (step l now e).1 (log ++ (step l now e).2) rest

/-- The bytes of the last answer a face gave to questions of this kind. -/
def lastGiven (k : Kind) (log : Log) : Option Bytes :=
  log.foldl (fun last e => match e with
    | .replied r q => if r.host = false ∧ q.1 = k then some r.bytes else last
    | .asked _ => last) none

/-- A colour the host tells is the one a face told last. -/
def Remembers (log : Log) : Prop :=
  ∀ before r ps asked after, log = before ++ .replied r (.colour ps, asked) :: after → r.host = true →
    lastGiven (.colour ps) before = some r.bytes

/-! ### Pieces of an input -/

variable {n : Nat}

theorem sequence_pos {b : Bytes} {s : Seq} (is : sequence b = some (s, n)) : 1 ≤ n := by
  match b, is with
  | esc :: kind :: rest, is =>
    rw [sequence] at is
    split at is
    · cases is
    split at is
    · dsimp only at is
      split at is
      · cases is
      · split at is
        · cases is
          omega
        · cases is
    split at is
    · obtain ⟨ended, -, same⟩ := Option.map_eq_some_iff.mp is
      cases same
      omega
    · cases is

theorem report_pos {b : Bytes} {s : Seq} {len : Nat} {mouse : Bool} (is : report b s n = some (mouse, len))
    (pos : 1 ≤ n) : 1 ≤ len := by
  unfold report at is
  split at is
  · cases is
  split at is
  · cases is
  split at is
  · cases is
    exact pos
  split at is
  · obtain ⟨at_, three, is⟩ := Option.bind_eq_some_iff.mp is
    split at is
    · cases is
      unfold threeChars at three
      obtain ⟨_, -, three⟩ := Option.bind_eq_some_iff.mp three
      obtain ⟨_, -, three⟩ := Option.bind_eq_some_iff.mp three
      obtain ⟨_, -, three⟩ := Option.bind_eq_some_iff.mp three
      cases three
      omega
    · cases is
  split at is
  · cases is
    exact pos
  split at is
  · cases is
    exact pos
  · cases is

/-- What a first piece changes: nothing that is asked, or it is the answer to the first question of its kind. -/
theorem takeOne_cases (l : Ledger) (b : UInt8) (rest : Bytes) {t : Taken} {l' : Ledger} (is : takeOne l b rest = (t, l')) :
    (l'.pending = l.pending ∧ l'.colours = l.colours ∧ ∀ now, t.reply now = none) ∨
      ∃ before q after bytes, l.pending = before ++ q :: after ∧ l'.pending = before ++ after ∧ t = .settled q bytes ∧
        (∃ s n, sequence (b :: rest) = some (s, n) ∧ bytes = (b :: rest).take n ∧ answer s = some q.1) ∧
        ∀ ps, l'.colours ps = if q.1 = .colour ps then some bytes else l.colours ps := by
  rw [takeOne] at is
  split at is
  · cases is
    exact .inl ⟨rfl, rfl, fun _ => rfl⟩
  next s n found =>
  split at is
  · next mouse len reported =>
    split at is
    · cases is
      exact .inl ⟨rfl, rfl, fun _ => rfl⟩
    · cases is
      cases mouse <;> exact .inl ⟨rfl, rfl, fun _ => rfl⟩
  split at is
  · cases is
    exact .inl ⟨rfl, rfl, fun _ => rfl⟩
  next k answers =>
  split at is
  · next q waits =>
    cases is
    obtain ⟨same, before, after, here, others⟩ := List.find?_eq_some_iff_append.mp waits
    obtain ⟨k', at_⟩ := q
    obtain rfl : k' = k := by simpa using same
    have gone : (l.pending.eraseP fun q => q.1 == k') = before ++ after := by
      rw [here, List.eraseP_append_right _ fun q mem => by simpa using others q mem, List.eraseP_cons_of_pos (by simp)]
    refine .inr ⟨before, (k', at_), after, _, here, ?_, rfl, ⟨s, n, found, rfl, answers⟩, fun ps => ?_⟩
    · cases k' <;> exact gone
    · cases k' with
      | colour ps' =>
          by_cases one : ps = ps'
          · subst one
            simp
          · simp [Function.update_of_ne one, Ne.symm one]
      | _ => simp
  · cases is
    exact .inl ⟨rfl, rfl, fun _ => rfl⟩

/-- `out` is what is left of an input when nothing goes but whole reports of a mode that is off, and whole answers for
which no question waits: `waiting` loses a question with each answer to one. -/
inductive Thinned (asks : Bool → Bool) : List (Kind × Nat) → Bytes → Bytes → Prop where
  | nil {waiting : List (Kind × Nat)} : Thinned asks waiting [] []
  | passes {waiting : List (Kind × Nat)} {b : UInt8} {rest out : Bytes} (more : Thinned asks waiting rest out) :
      Thinned asks waiting (b :: rest) (b :: out)
  | settles {before after : List (Kind × Nat)} {q : Kind × Nat} {input out : Bytes} {s : Seq} {n : Nat}
      (whole : sequence input = some (s, n)) (is : answer s = some q.1)
      (more : Thinned asks (before ++ after) (input.drop n) out) :
      Thinned asks (before ++ q :: after) input (input.take n ++ out)
  | late {waiting : List (Kind × Nat)} {k : Kind} {input out : Bytes} {s : Seq} {n : Nat}
      (whole : sequence input = some (s, n)) (is : answer s = some k) (nobody : ∀ q ∈ waiting, q.1 ≠ k)
      (more : Thinned asks waiting (input.drop n) out) : Thinned asks waiting input out
  | unwanted {waiting : List (Kind × Nat)} {mouse : Bool} {input out : Bytes} {s : Seq} {n len : Nat}
      (whole : sequence input = some (s, n)) (is : report input s n = some (mouse, len)) (off : asks mouse = false)
      (more : Thinned asks waiting (input.drop len) out) : Thinned asks waiting input out

theorem Thinned.append {asks : Bool → Bool} {waiting : List (Kind × Nat)} {rest out : Bytes}
    (more : Thinned asks waiting rest out) : ∀ front : Bytes, Thinned asks waiting (front ++ rest) (front ++ out)
  | [] => more
  | _ :: front => .passes (more.append front)

theorem drop_piece {b : UInt8} {rest : Bytes} (pos : 1 ≤ n) :
    rest.drop (((b :: rest).take n).length - 1) = (b :: rest).drop n := by
  obtain ⟨n, rfl⟩ := Nat.exists_eq_succ_of_ne_zero (Nat.ne_of_gt pos)
  rw [List.take_succ_cons, List.length_cons, Nat.add_sub_cancel, List.drop_succ_cons, List.length_take]
  rcases Nat.le_total n rest.length with fits | past
  · rw [Nat.min_eq_left fits]
  · rw [Nat.min_eq_right past, List.drop_length, List.drop_of_length_le past]

/-- The first piece goes on, or may go. -/
theorem takeOne_thins (l : Ledger) (b : UInt8) (rest : Bytes) {t : Taken} {l' : Ledger} (is : takeOne l b rest = (t, l')) :
    l'.modes = l.modes ∧ ∀ out, Thinned l.asks l'.pending (rest.drop (t.read.length - 1)) out →
      Thinned l.asks l.pending (b :: rest) (t.sent ++ out) := by
  have kind := takeOne_cases l b rest is
  rw [takeOne] at is
  split at is
  · cases is
    exact ⟨rfl, fun _ more => more.passes⟩
  next s n found =>
  have pos := sequence_pos found
  split at is
  · next mouse len reported =>
    have pos' := report_pos reported pos
    split at is
    · cases is
      refine ⟨rfl, fun out more => ?_⟩
      rw [Taken.read, drop_piece pos'] at more
      have whole := more.append ((b :: rest).take len)
      rwa [List.take_append_drop] at whole
    · next off =>
      cases is
      refine ⟨by cases mouse <;> rfl, fun out more => ?_⟩
      rw [Taken.read, drop_piece pos'] at more
      refine .unwanted found reported (Bool.eq_false_iff.mpr off) ?_
      cases mouse <;> exact more
  split at is
  · cases is
    exact ⟨rfl, fun _ more => more.passes⟩
  next k answers =>
  split at is
  · cases is
    refine ⟨by cases k <;> rfl, fun out more => ?_⟩
    obtain ⟨-, -, none_⟩ | ⟨before, q, after, _, there, gone, same, ⟨s', n', found', -, is⟩, -⟩ := kind
    · cases none_ 0
    · cases same
      obtain ⟨rfl, rfl⟩ := Prod.mk.inj (Option.some.inj (found.symm.trans found'))
      rw [Taken.read, drop_piece pos, gone] at more
      rw [there]
      exact .settles found is more
  · next none_ =>
    cases is
    refine ⟨rfl, fun out more => ?_⟩
    rw [Taken.read, drop_piece pos] at more
    exact .late found answers (fun q mem => by simpa using List.find?_eq_none.mp none_ q mem) more

theorem takeFrom_thins : ∀ (bytes : Bytes) (skip : Nat) (l : Ledger),
    Thinned l.asks l.pending (bytes.drop skip) ((takeFrom l skip bytes).1.flatMap Taken.sent)
  | [], _, _ => by
      rw [List.drop_nil, takeFrom]
      exact .nil
  | _ :: _, skip + 1, l => by
      rw [takeFrom, List.drop_succ_cons]
      exact takeFrom_thins _ skip l
  | b :: rest, 0, l => by
      obtain ⟨modes, thins⟩ := takeOne_thins l b rest (Prod.eta _).symm
      have asks : (takeOne l b rest).2.asks = l.asks := by
        funext mouse
        rw [Ledger.asks, Ledger.asks, Ledger.mouseOn, Ledger.mouseOn, modes]
      rw [takeFrom, List.drop_zero, List.flatMap_cons]
      exact thins _ (asks ▸ takeFrom_thins rest _ _)

/-- **A face's input goes on in order**, but for whole reports the program did not ask for, and for whole answers to
questions nobody has asked, or has asked too long ago, or that have been answered. -/
theorem takeInput_thins (l : Ledger) (bytes : Bytes) (now : Nat) :
    Thinned l.asks (expire now l.pending) bytes (takeInput l bytes now).1 :=
  takeFrom_thins bytes 0 { l with pending := expire now l.pending }

/-! ### What is answered -/

section Answered

open Settling

theorem lastGiven_append (k : Kind) (log : Log) (e : Settling.Entry (Kind × Nat) Reply) : lastGiven k (log ++ [e]) =
    match e with
    | .replied r q => if r.host = false ∧ q.1 = k then some r.bytes else lastGiven k log
    | .asked _ => lastGiven k log := by
  rw [lastGiven, List.foldl_append]
  cases e <;> rfl

theorem Remembers.append {log : Log} (h : Remembers log) {e : Settling.Entry (Kind × Nat) Reply}
    (one : ∀ r ps asked, e = .replied r (.colour ps, asked) → r.host = true → lastGiven (.colour ps) log = some r.bytes) :
    Remembers (log ++ [e]) := by
  intro before r ps asked after is host
  rcases List.eq_nil_or_concat after with rfl | ⟨front, last, rfl⟩
  · obtain ⟨rfl, same⟩ := List.append_inj' is rfl
    exact one r ps asked (List.singleton_inj.mp same) host
  · rw [List.concat_eq_append, ← List.cons_append, ← List.append_assoc] at is
    exact h before r ps asked front (List.append_inj' is rfl).1 host

/-- What holds of the ledger and the log between two events. -/
structure Kept (l : Ledger) (log : Log) : Prop where
  moves : Moves Fits ⟨[], []⟩ ⟨log, l.pending⟩
  colours : ∀ ps, l.colours ps = lastGiven (.colour ps) log
  remembers : Remembers log

variable {l : Ledger} {log : Log} {now : Nat}

theorem Kept.expire (h : Kept l log) (now : Nat) : Kept { l with pending := expire now l.pending } log :=
  ⟨h.moves.tail (.forget List.filter_sublist), h.colours, h.remembers⟩

/-- Every question that waits is young enough. -/
def Young (now : Nat) (pending : List (Kind × Nat)) : Prop := ∀ q ∈ pending, now - q.2 ≤ ANSWER_MAX_AGE

theorem young_expire (now : Nat) (pending : List (Kind × Nat)) : Young now (Answers.expire now pending) :=
  fun _ mem => of_decide_eq_true (List.mem_filter.mp mem).2

theorem Kept.takes : ∀ {bytes : Bytes} {skip : Nat} {l : Ledger} {log : Log}, Kept l log → Young now l.pending →
    Kept (takeFrom l skip bytes).2 (log ++ (takeFrom l skip bytes).1.filterMap (Taken.reply now))
  | [], _, _, _, h, _ => by simpa [takeFrom] using h
  | _ :: rest, skip + 1, l, log, h, young => by
      rw [takeFrom]
      exact h.takes young
  | b :: rest, 0, l, log, h, young => by
      rw [takeFrom]
      rcases takeOne_cases l b rest (Prod.eta _).symm with ⟨pending, colours, none_⟩ | ⟨before, q, after, bytes, there, gone, is, answers, colours⟩
      · have h' : Kept (takeOne l b rest).2 log := ⟨pending ▸ h.moves, colours ▸ h.colours, h.remembers⟩
        rw [List.filterMap_cons, none_ now]
        exact h'.takes (pending ▸ young)
      · have fit : Fits ⟨now, bytes, false⟩ q :=
          ⟨young _ (by rw [there]; exact List.mem_append_right _ List.mem_cons_self), _, answers⟩
        have h' : Kept (takeOne l b rest).2 (log ++ [.replied ⟨now, bytes, false⟩ q]) := by
          refine ⟨?_, fun ps => ?_, h.remembers.append fun r ps asked same host => ?_⟩
          · rw [gone]
            exact (there ▸ h.moves).tail (.reply fit)
          · rw [colours ps, lastGiven_append, ← h.colours ps]
            simp
          · cases same
            cases host
        have fewer : Young now (takeOne l b rest).2.pending := fun q mem => young q (by
          rw [gone] at mem
          rw [there]
          exact ((List.sublist_cons_self _ _).append_left before).subset mem)
        rw [is, List.filterMap_cons, Taken.reply, List.append_cons, ← is]
        exact h'.takes fewer

theorem Kept.asks : ∀ {ks : List Kind} {pending : List (Kind × Nat)} {log : Log}, Kept { l with pending := pending } log →
    Kept { l with pending := pending ++ ks.map fun k => (k, now) } (log ++ ks.map fun k => .asked (k, now))
  | [], _, _, h => by simpa using h
  | k :: ks, pending, log, h => by
      have one : Kept { l with pending := pending ++ [(k, now)] } (log ++ [.asked (k, now)]) := by
        refine ⟨h.moves.tail (.ask _), fun ps => ?_, h.remembers.append (by rintro _ _ _ ⟨⟩)⟩
        rw [lastGiven_append]
        exact h.colours ps
      rw [List.map_cons, List.map_cons, List.append_cons pending, List.append_cons log]
      exact one.asks

/-- The host's answers, one after the other. -/
theorem Kept.speaks : ∀ {p b : List (Kind × Nat)} {log : Log},
    Kept { l with pending := b ++ p } log → Young now p →
    Kept { l with pending := b ++ (spoken l now p).2 }
      (log ++ (spoken l now p).1.map fun a => .replied ⟨now, a.2, true⟩ a.1)
  | [], before, log, h, _ => by simpa [spoken] using h
  | q :: rest, before, log, h, young => by
      have young' : Young now rest := fun q mem => young q (.tail _ mem)
      have keeps : Kept { l with pending := before ++ q :: (spoken l now rest).2 }
          (log ++ (spoken l now rest).1.map fun a => .replied ⟨now, a.2, true⟩ a.1) := by
        have := Kept.speaks (p := rest) (b := before ++ [q]) (by rwa [← List.append_cons]) young'
        rwa [← List.append_cons] at this
      rw [spoken]
      split
      · exact keeps
      next waited =>
      split
      · next a own =>
        rw [List.map_cons, List.append_cons]
        refine Kept.speaks (b := before) ⟨?_, fun ps => ?_, h.remembers.append fun r ps asked same host => ?_⟩ young'
        · exact h.moves.tail (.reply ⟨young q (.head _), Nat.le_of_not_lt waited⟩)
        · rw [lastGiven_append]
          exact h.colours ps
        · cases same
          exact (h.colours ps).symm.trans own
      · exact keeps

theorem Kept.step (h : Kept l log) (now : Nat) (e : Event) : Kept (step l now e).1 (log ++ (step l now e).2) := by
  cases e with
  | output bytes =>
      have asked : Kept { l with pending := l.pending ++ (questions 0 (l.tail ++ bytes)).1.map fun k => (k, now) } _ := h.asks
      have young := asked.expire now
      exact ⟨young.moves, young.colours, young.remembers⟩
  | input bytes => exact (h.expire now).takes (young_expire now l.pending)
  | silence => exact Kept.speaks (b := []) (h.expire now) (young_expire now l.pending)

theorem Kept.run : ∀ {e : List (Event × Nat)} {l : Ledger} {log : Log}, Kept l log → Kept (run l log e).1 (run l log e).2
  | [], _, _, h => h
  | (e, now) :: _, _, _, h => (h.step now e).run

end Answered

end Khor.Term.Answers
