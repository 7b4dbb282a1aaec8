/-
Module: Khor.Files.Pull
Purpose: Pulls of a far file into one landing: the slices asked for ahead, the stamp each is held to, the part, the note
  of what the part is of, kills at every step and pulls again.
Trusted boundary: the far file system's sizes and times, the wire, the local file system
Main exports: Source, Stamp, World.step, World.Steady, World.Meets
-/
import Khor.Lib.Runs

namespace Khor.PullInto

abbrev Bytes := List UInt8

def SLICE : Nat := 256 * 1024
def PULL_AHEAD : Nat := 8

/-- A file of a machine, or of a machine behind it. -/
structure Source where
  machine : String
  sat : Option String
  path : String
deriving DecidableEq

/-- What a slice is held to. -/
structure Stamp where
  total : Nat
  atMs : Nat
deriving DecidableEq

structure PullNote where
  src : Source
  stamp : Stamp

structure Version where
  bytes : Bytes
  atMs : Nat

def Version.stamp (v : Version) : Stamp := ⟨v.bytes.length, v.atMs⟩

inductive Answer where
  | slice (stamp : Stamp) (bytes : Bytes)
  | refused
  | other
  | lost

/-- An ask on its way: before the far machine's look at the file, after it, and answered. `was` is what the file held at
the look. -/
inductive Ask where
  | waiting
  | looked (stamp : Stamp) (was : Bytes)
  | answered (a : Answer)

structure Call where
  src : Source
  cap : Option Nat
  resume : Bool

/-- A pull under way. -/
structure Pull where
  call : Call
  contract : Option Stamp
  offset : Nat
  resumedFrom : Nat

/-- Where a pull is: before the wire, before its files are opened, before the next asks, with asks out, with answers to
go through, before the note, before the bytes, before the part is emptied, before the rename, before the note goes, at a
failure with the part and then the note to go, and returned. -/
inductive Phase where
  | idle
  | begun (c : Call)
  | opening (c : Call)
  | looping (p : Pull)
  | asked (p : Pull) (wire : List (Nat × Ask))
  | handling (p : Pull) (answers : List (Nat × Answer))
  | noting (p : Pull) (stamp : Stamp) (bytes : Bytes) (rest : List (Nat × Answer))
  | writing (p : Pull) (stamp : Stamp) (bytes : Bytes) (rest : List (Nat × Answer))
  | restarting (p : Pull)
  | moving (p : Pull)
  | unnoting (p : Pull)
  | failing (c : Call)
  | failing2 (c : Call)
  | returned (c : Call) (ok : Bool)

/-- `seen` is what looks saw under a stamp, `past` what the far files held since the first pull began. -/
structure World where
  far : Source → Option Version
  part : Option Bytes
  note : Option PullNote
  dest : Option Bytes
  phase : Phase
  seen : Source → List (Stamp × Bytes)
  past : Source → List Bytes

/-- `fault` says whether the system fails the step. -/
inductive Event where
  | call (c : Call)
  | line (fault : Bool)
  | open_ (fault : Bool)
  | ask (stopped : Bool)
  | look (k : Nat)
  | read (k len : Nat)
  | refuse (k : Nat)
  | answerOther (k : Nat)
  | lose (k : Nat)
  | gather
  | handle
  | note (fault : Option Bool)
  | write (fault : Option Nat)
  | restart (fault : Bool)
  | rename (fault : Bool)
  | unnote (fault : Bool)
  | removePart (fault : Bool)
  | removeNote (fault : Bool)
  | kill (k : Nat)
  | edit (src : Source) (v : Option Version)

/-- The part is carried on from if its note is of the same file. -/
def World.held (w : World) (src : Source) : Option (Stamp × Nat) :=
  match w.note, w.part with
  | some n, some had => if n.src = src && had.length ≤ n.stamp.total then some (n.stamp, had.length) else none
  | _, _ => none

def World.open_ (w : World) (fault : Bool) : World :=
  match w.phase with
  | .opening c =>
      if fault then { w with phase := .returned c false }
      else
        match w.held c.src with
        | some (stamp, had) => { w with phase := .looping ⟨c, some stamp, had, had⟩ }
        | none => { w with phase := .looping ⟨c, none, 0, 0⟩, part := some [] }
  | _ => w

/-- The next slices to ask for: the first alone until the stamp is known. -/
def Pull.offsets (p : Pull) : List Nat :=
  match p.contract with
  | none => [p.offset]
  | some stamp => ((List.range PULL_AHEAD).map (p.offset + · * SLICE)).takeWhile (· < stamp.total)

def World.ask (w : World) (stopped : Bool) : World :=
  match w.phase with
  | .looping p =>
      if stopped then { w with phase := .failing p.call }
      else if p.offsets = [] then { w with phase := .moving p }
      else { w with phase := .asked p (p.offsets.map fun offset => (offset, .waiting)) }
  | _ => w

/-- An ask becomes another. -/
def World.become (w : World) (p : Pull) (wire : List (Nat × Ask)) (k offset : Nat) (ask : Ask) : World :=
  { w with phase := .asked p (wire.set k (offset, ask)) }

/-- The far machine looks at the file's size and time. -/
def World.look (w : World) (k : Nat) : World :=
  match w.phase with
  | .asked p wire =>
      match wire[k]? with
      | some (offset, .waiting) =>
          match w.far p.call.src with
          | some v =>
              if v.bytes.length < offset then w.become p wire k offset (.answered .refused)
              else
                { w.become p wire k offset (.looked v.stamp v.bytes) with
                  seen := fun src => if src = p.call.src then (v.stamp, v.bytes) :: w.seen src else w.seen src }
          | none => w.become p wire k offset (.answered .refused)
      | _ => w
  | _ => w

/-- Then it reads as many bytes as it is asked for and the file had; an answer may be short. -/
def World.read (w : World) (k len : Nat) : World :=
  match w.phase with
  | .asked p wire =>
      match wire[k]? with
      | some (offset, .looked stamp _) =>
          match w.far p.call.src with
          | some v =>
              let want := min (stamp.total - offset) SLICE
              if v.bytes.length < offset + want then w.become p wire k offset (.answered .refused)
              else w.become p wire k offset (.answered (.slice stamp ((v.bytes.drop offset).take (min want len))))
          | none => w.become p wire k offset (.answered .refused)
      | _ => w
  | _ => w

/-- An ask that is not answered with bytes. -/
def World.answer (w : World) (k : Nat) (a : Answer) : World :=
  match w.phase with
  | .asked p wire =>
      match wire[k]? with
      | some (offset, .waiting) | some (offset, .looked ..) => w.become p wire k offset (.answered a)
      | _ => w
  | _ => w

def answers : List (Nat × Ask) → Option (List (Nat × Answer))
  | [] => some []
  | (offset, .answered a) :: wire => (answers wire).map ((offset, a) :: ·)
  | _ => none

def World.gather (w : World) : World :=
  match w.phase with
  | .asked p wire =>
      match answers wire with
      | some all => { w with phase := .handling p all }
      | none => w
  | _ => w

/-- The bytes are written unless there are none of a file that has some. -/
def Pull.takes (p : Pull) (stamp : Stamp) (bytes : Bytes) (rest : List (Nat × Answer)) : Phase :=
  if bytes = [] && 0 < stamp.total then .failing p.call else .writing p stamp bytes rest

/-- The next answer, if it is the next slice. -/
def World.handle (w : World) : World :=
  match w.phase with
  | .handling p [] => { w with phase := .looping p }
  | .handling p ((offset, a) :: rest) =>
      if offset = p.offset then
        match a with
        | .slice stamp bytes =>
            match p.contract with
            | none =>
                if p.call.cap.any (· < stamp.total) then { w with phase := .failing p.call }
                else { w with phase := .noting { p with contract := some stamp } stamp bytes rest }
            | some contract =>
                if contract = stamp then { w with phase := p.takes stamp bytes rest }
                else if p.offset = p.resumedFrom && 0 < p.resumedFrom then { w with phase := .restarting p }
                else { w with phase := .failing p.call }
        | .refused | .other => { w with phase := .failing p.call }
        | .lost => if p.call.resume then { w with phase := .returned p.call false } else { w with phase := .failing p.call }
      else { w with phase := .looping p }
  | _ => w

/-- A note that cannot be written is passed over: the old one stays, or none that can be read. -/
def World.writeNote (w : World) (fault : Option Bool) : World :=
  match w.phase with
  | .noting p stamp bytes rest =>
      { w with
        phase := p.takes stamp bytes rest
        note :=
          match fault with
          | none => some ⟨p.call.src, stamp⟩
          | some true => w.note
          | some false => none }
  | _ => w

def World.append (w : World) (bytes : Bytes) : Option Bytes := w.part.map (· ++ bytes)

def World.write (w : World) (fault : Option Nat) : World :=
  match w.phase, fault with
  | .writing p _ bytes _, some k => { w with phase := .failing p.call, part := w.append (bytes.take k) }
  | .writing p stamp bytes rest, none =>
      { w with
        phase :=
          if stamp.total ≤ p.offset + bytes.length then .moving { p with offset := p.offset + bytes.length }
          else .handling { p with offset := p.offset + bytes.length } rest
        part := w.append bytes }
  | _, _ => w

def World.restart (w : World) (fault : Bool) : World :=
  match w.phase with
  | .restarting p =>
      { w with
        phase := .looping { p with offset := 0, contract := none }
        part := if fault then w.part else w.part.map fun _ => [] }
  | _ => w

def World.rename (w : World) (fault : Bool) : World :=
  match w.phase with
  | .moving p =>
      if fault then { w with phase := .returned p.call false }
      else { w with phase := .unnoting p, part := none, dest := w.part }
  | _ => w

def World.unnote (w : World) (fault : Bool) : World :=
  match w.phase with
  | .unnoting p => { w with phase := .returned p.call true, note := if fault then w.note else none }
  | _ => w

def World.removePart (w : World) (fault : Bool) : World :=
  match w.phase with
  | .failing c => { w with phase := .failing2 c, part := if fault then w.part else none }
  | _ => w

def World.removeNote (w : World) (fault : Bool) : World :=
  match w.phase with
  | .failing2 c => { w with phase := .returned c false, note := if fault then w.note else none }
  | _ => w

/-- A kill can come after some of the bytes of a write. -/
def World.kill (w : World) (k : Nat) : World :=
  match w.phase with
  | .writing _ _ bytes _ => { w with phase := .idle, part := w.append (bytes.take k) }
  | _ => { w with phase := .idle }

def World.edit (w : World) (src : Source) (v : Option Version) : World :=
  { w with
    far := fun s => if s = src then v else w.far s
    past := fun s => if s = src then (v.map Version.bytes).toList ++ w.past s else w.past s }

def World.step (w : World) : Event → World
  | .call c =>
      match w.phase with
      | .idle | .returned .. => { w with phase := .begun c }
      | _ => w
  | .line fault =>
      match w.phase with
      | .begun c => { w with phase := if fault then .returned c false else .opening c }
      | _ => w
  | .open_ fault => w.open_ fault
  | .ask stopped => w.ask stopped
  | .look k => w.look k
  | .read k len => w.read k len
  | .refuse k => w.answer k .refused
  | .answerOther k => w.answer k .other
  | .lose k => w.answer k .lost
  | .gather => w.gather
  | .handle => w.handle
  | .note fault => w.writeNote fault
  | .write fault => w.write fault
  | .restart fault => w.restart fault
  | .rename fault => w.rename fault
  | .unnote fault => w.unnote fault
  | .removePart fault => w.removePart fault
  | .removeNote fault => w.removeNote fault
  | .kill k => w.kill k
  | .edit src v => w.edit src v

/-- The first pull begins, over what may lie under the part's name and no note. -/
def World.start (far : Source → Option Version) (part dest : Option Bytes) (c : Call) : World where
  far
  part
  note := none
  dest
  phase := .begun c
  seen := fun _ => []
  past := fun src => ((far src).map Version.bytes).toList

/-! ### What is relied on, and the condition -/

/-- One size and time are of one content. -/
def World.Steady (w : World) : Event → Prop
  | .look k => ∀ p wire offset v bytes, w.phase = .asked p wire → wire[k]? = some (offset, .waiting) →
      w.far p.call.src = some v → (v.stamp, bytes) ∈ w.seen p.call.src → bytes = v.bytes
  | _ => True

/-- What is read of the far file is what it held at the look. A note of another pull does not stay when the next cannot
be written, and a part is emptied when it is started over. A pull that is not to be resumed does not fail before its
part is open over a part or a note, nor in its rename, nor in taking them away. -/
def World.Meets (w : World) : Event → Prop
  | .read k _ => ∀ p wire offset stamp was v, w.phase = .asked p wire → wire[k]? = some (offset, .looked stamp was) →
      w.far p.call.src = some v →
      (v.bytes.drop offset).take (stamp.total - offset) = (was.drop offset).take (stamp.total - offset)
  | .note fault => fault = some true → w.note = none
  | .restart fault => fault = false
  | .line fault => ∀ c, w.phase = .begun c → fault = true → c.resume = false → w.part = none ∧ w.note = none
  | .open_ fault => ∀ c, w.phase = .opening c → fault = true → c.resume = false → w.part = none ∧ w.note = none
  | .rename fault => ∀ p, w.phase = .moving p → p.call.resume = false → fault = false
  | .removePart fault | .removeNote fault => fault = false
  | _ => True

/-! ### Full answers -/

/-- The step goes on, with a full answer where the far machine answers. -/
def World.Full (w : World) : Event → Prop
  | .line fault => fault = false ∧ ∃ c, w.phase = .begun c
  | .open_ fault => fault = false ∧ ∃ c, w.phase = .opening c
  | .ask stopped => stopped = false ∧ ∃ p, w.phase = .looping p
  | .look k => ∃ p wire offset, w.phase = .asked p wire ∧ wire[k]? = some (offset, .waiting)
  | .read k len => SLICE ≤ len ∧ ∃ p wire offset stamp was, w.phase = .asked p wire ∧
      wire[k]? = some (offset, .looked stamp was)
  | .gather => ∃ p wire all, w.phase = .asked p wire ∧ answers wire = some all
  | .handle => ∃ p all, w.phase = .handling p all
  | .note _ => ∃ p stamp bytes rest, w.phase = .noting p stamp bytes rest
  | .write fault => fault = none ∧ ∃ p stamp bytes rest, w.phase = .writing p stamp bytes rest
  | .restart _ => ∃ p, w.phase = .restarting p
  | .rename _ => ∃ p, w.phase = .moving p
  | .unnote _ => ∃ p, w.phase = .unnoting p
  | .removePart _ => ∃ c, w.phase = .failing c
  | .removeNote _ => ∃ c, w.phase = .failing2 c
  | _ => False

def Phase.isOver : Phase → Bool
  | .idle | .returned .. => true
  | _ => false

/-! ### What pulls are for -/

structure Pulled (w : World) : Prop where
  /-- What a pull lands is what the far file held at some moment. -/
  lands : ∀ c, w.phase = .returned c true → ∃ bytes, w.dest = some bytes ∧ bytes ∈ w.past c.src
  /-- A part whose note is of another file contributes no byte. -/
  others : ∀ c n, w.phase = .opening c → w.note = some n → n.src ≠ c.src →
    (w.open_ false).part = some [] ∧ (w.open_ false).phase = .looping ⟨c, none, 0, 0⟩
  /-- A pull that failed and is not to be resumed leaves nothing. -/
  leaves : ∀ c, w.phase = .returned c false → c.resume = false → w.part = none ∧ w.note = none
  /-- A pull goes on. -/
  goes : w.phase.isOver = false → ∃ e, w.Full e
  /-- A pull that gets full answers ends. -/
  ends : ∀ c, w.phase = .begun c → ∃ most, ∀ es, Fits World.step World.Full w es → es.length ≤ most

end Khor.PullInto
