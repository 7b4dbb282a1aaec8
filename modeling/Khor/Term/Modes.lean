/-
Module: Khor.Term.Modes
Purpose: The terminal modes a byte stream has switched on, and the bytes that put a fresh terminal into them
  (crates/node/src/modes.rs).
Trusted boundary: none
Main exports: Modes, Modes.byte, Modes.feed, Modes.preamble, Modes.Same
-/
import Khor.Lib.Decimal

namespace Khor.Term

abbrev Bytes := List UInt8

def ESC : UInt8 := 0x1b

/-- The modes that are tracked, each with the value a freshly reset terminal has. -/
def TRACKED : List (UInt16 × Bool) :=
  [(47, false), (1047, false), (1049, false), (1, false), (7, true), (25, true), (9, false), (1000, false),
    (1002, false), (1003, false), (1004, false), (1005, false), (1006, false), (1015, false), (2004, false)]

/-- `Parse`: where a stream stands in an escape sequence. -/
inductive Parse where
  | ground
  | esc
  | csi (isPrivate foreign started : Bool) (lead : UInt8)
  | str
  | strEsc
deriving DecidableEq

/-- `Modes`: `kitty false` is the main screen's stack of keyboard flags, `kitty true` the alternate screen's. -/
structure Modes where
  parse : Parse
  params : List UInt16
  current : Option UInt16
  set : UInt16 → Option Bool
  keypad : Bool
  kitty : Bool → List UInt16
  otherKeys : UInt16

def KITTY_MAX : Nat := 16

namespace Modes

/-- `Modes::default`. -/
def fresh : Modes := ⟨.ground, [], none, fun _ => none, false, fun _ => [], 0⟩

/-- The mode is one of those that are tracked. -/
def tracked (p : UInt16) : Bool := TRACKED.any fun t => t.1 == p

/-- The value of a mode on a freshly reset terminal. -/
def resetValue (mode : UInt16) : Bool := TRACKED.any fun t => t.1 == mode && t.2

/-- `Modes::is_set`. -/
def isSet (m : Modes) (mode : UInt16) : Bool :=
  (m.set mode).getD (resetValue mode)

/-- The mode switches to the alternate screen. -/
def isAlternate (p : UInt16) : Bool := p == 47 || p == 1047 || p == 1049

/-- The alternate screen is in use. -/
def alt (m : Modes) : Bool := m.isSet 47 || m.isSet 1047 || m.isSet 1049

/-- `Modes::kitty_op`. -/
def kittyOp (m : Modes) (lead : UInt8) : Modes :=
  let first := m.params.head?
  let stack := m.kitty m.alt
  let put (stack : List UInt16) := { m with kitty := fun screen => if screen = m.alt then stack else m.kitty screen }
  if lead = '>'.toUInt8 then
    put ((if KITTY_MAX ≤ stack.length then stack.tail else stack) ++ [first.getD 0])
  else if lead = '<'.toUInt8 then
    let n := ((first.filter fun n => n != 0).getD 1).toNat
    put (stack.take (stack.length - n))
  else if lead = '='.toUInt8 then
    let flags := first.getD 0
    let mode := ((m.params[1]?).filter fun n => n != 0).getD 1
    let was := stack.getLast?.getD 0
    put (stack.dropLast ++ [if mode = 2 then was ||| flags else if mode = 3 then was &&& ~~~flags else flags])
  else m

/-- One mode of a mode set or reset. -/
def setMode (on : Bool) (m : Modes) (p : UInt16) : Modes :=
  if tracked p then
    let m := { m with set := fun mode => if mode = p then some on else m.set mode }
    if !on && isAlternate p then { m with kitty := fun screen => if screen then [] else m.kitty screen } else m
  else m

/-- The byte that ends a control sequence. -/
def final (m : Modes) (isPrivate foreign : Bool) (lead b : UInt8) : Modes :=
  let m := { m with
    parse := .ground
    params := m.params ++ m.current.toList
    current := none }
  let m := if isPrivate && !foreign && (b == 'h'.toUInt8 || b == 'l'.toUInt8) then
      m.params.foldl (setMode (b == 'h'.toUInt8)) m
    else m
  let m := if b == 'u'.toUInt8 && lead != 0 && !foreign then m.kittyOp lead else m
  if b == 'm'.toUInt8 && lead == '>'.toUInt8 && !foreign && m.params.head? == some 4 then
    let v := (m.params[1]?).getD 0
    { m with otherKeys := if v ≤ 2 then v else 0 }
  else m

/-- One more digit, saturating. -/
def digit (current : Option UInt16) (b : UInt8) : UInt16 :=
  UInt16.ofNat (min (min ((current.getD 0).toNat * 10) 65535 + (b.toNat - '0'.toNat)) 65535)

/-- A byte within a control sequence. -/
def inCsi (m : Modes) (isPrivate foreign started : Bool) (lead b : UInt8) : Modes :=
  if b = ESC then { m with parse := .esc }
  else if b = '?'.toUInt8 ∧ started = false then { m with parse := .csi true foreign true lead }
  else if (b = '>'.toUInt8 ∨ b = '<'.toUInt8 ∨ b = '='.toUInt8) ∧ started = false then
    { m with parse := .csi isPrivate foreign true b }
  else if '0'.toUInt8 ≤ b ∧ b ≤ '9'.toUInt8 then
    { m with current := some (digit m.current b), parse := .csi isPrivate foreign true lead }
  else if b = ';'.toUInt8 then
    { m with params := m.params ++ [m.current.getD 0], current := none, parse := .csi isPrivate foreign true lead }
  else if 0x40 ≤ b ∧ b ≤ 0x7e then m.final isPrivate foreign lead b
  else if 0x20 ≤ b ∧ b ≤ 0x3f then { m with parse := .csi isPrivate true true lead }
  else m

/-- The byte after an escape character. -/
def afterEsc (m : Modes) (b : UInt8) : Modes :=
  if b = '['.toUInt8 then { m with params := [], current := none, parse := .csi false false false 0 }
  else if b = ']'.toUInt8 ∨ b = 'P'.toUInt8 ∨ b = 'X'.toUInt8 ∨ b = '^'.toUInt8 ∨ b = '_'.toUInt8 then
    { m with parse := .str }
  else if b = '='.toUInt8 then { m with parse := .ground, keypad := true }
  else if b = '>'.toUInt8 then { m with parse := .ground, keypad := false }
  else if b = 'c'.toUInt8 then
    { m with parse := .ground, set := fun _ => none, keypad := false, kitty := fun _ => [], otherKeys := 0 }
  else if b = ESC then { m with parse := .esc }
  else { m with parse := .ground }

/-- `Modes::byte`. CAN and SUB abort any sequence. -/
def byte (m : Modes) (b : UInt8) : Modes :=
  if b = 0x18 ∨ b = 0x1a then { m with parse := .ground }
  else match m.parse with
    | .ground => if b = ESC then { m with parse := .esc } else m
    | .esc => m.afterEsc b
    | .csi isPrivate foreign started lead => m.inCsi isPrivate foreign started lead b
    | .str =>
        if b = 0x07 then { m with parse := .ground }
        else if b = ESC then { m with parse := .strEsc }
        else m
    | .strEsc => { m with parse := if b = '\\'.toUInt8 then .ground else .str }

/-- `Modes::feed`. -/
def feed (m : Modes) (bytes : Bytes) : Modes := bytes.foldl byte m

/-- `Modes::mid_sequence`. -/
def midSequence (m : Modes) : Bool := m.parse != .ground

/-- A number as it stands in a sequence. -/
def digits (n : Nat) : Bytes := (decimal n).map Char.toUInt8

/-- The flags of a stack, pushed one by one. -/
def pushes (stack : List UInt16) : Bytes :=
  stack.flatMap fun f => [ESC, '['.toUInt8, '>'.toUInt8] ++ digits f.toNat ++ ['u'.toUInt8]

/-- A tracked mode, where it is not as on a fresh terminal. -/
def modeBytes (m : Modes) (t : UInt16 × Bool) : Bytes :=
  match m.set t.1 with
  | some on =>
      if on != t.2 then
        [ESC, '['.toUInt8, '?'.toUInt8] ++ digits t.1.toNat ++ [if on then 'h'.toUInt8 else 'l'.toUInt8]
      else []
  | none => []

/-- `Modes::preamble`. -/
def preamble (m : Modes) : Bytes :=
  pushes (m.kitty false) ++ TRACKED.flatMap m.modeBytes ++ pushes (m.kitty true) ++
    (if 0 < m.otherKeys then
      [ESC, '['.toUInt8, '>'.toUInt8, '4'.toUInt8, ';'.toUInt8] ++ digits m.otherKeys.toNat ++ ['m'.toUInt8] else []) ++
    (if m.keypad then [ESC, '='.toUInt8] else [])

@[simp] theorem feed_nil (m : Modes) : m.feed [] = m := rfl

/-- A stream can be fed in pieces. -/
theorem feed_append (m : Modes) (one two : Bytes) : m.feed (one ++ two) = (m.feed one).feed two :=
  List.foldl_append

theorem feed_cons (m : Modes) (b : UInt8) (bytes : Bytes) : m.feed (b :: bytes) = (m.byte b).feed bytes := rfl

/-! ### What can be told apart -/

/-- Two readers that stand at the same place of a sequence and in the same modes. -/
structure Same (m m' : Modes) : Prop where
  parse : m.parse = m'.parse
  isSet : ∀ mode, m.isSet mode = m'.isSet mode
  keypad : m.keypad = m'.keypad
  kitty : m.kitty = m'.kitty
  otherKeys : m.otherKeys = m'.otherKeys
  params : ∀ isPrivate foreign started lead, m.parse = .csi isPrivate foreign started lead →
    m.params = m'.params ∧ m.current = m'.current

variable {m m' m'' : Modes}

theorem Same.refl (m : Modes) : Same m m :=
  ⟨rfl, fun _ => rfl, rfl, rfl, rfl, fun _ _ _ _ _ => ⟨rfl, rfl⟩⟩

theorem Same.trans (h : Same m m') (h' : Same m' m'') : Same m m'' where
  parse := h.parse.trans h'.parse
  isSet := fun mode => (h.isSet mode).trans (h'.isSet mode)
  keypad := h.keypad.trans h'.keypad
  kitty := h.kitty.trans h'.kitty
  otherKeys := h.otherKeys.trans h'.otherKeys
  params := fun isPrivate foreign started lead is => by
    obtain ⟨params, current⟩ := h.params isPrivate foreign started lead is
    obtain ⟨params', current'⟩ := h'.params isPrivate foreign started lead (h.parse.symm.trans is)
    exact ⟨params.trans params', current.trans current'⟩

/-- The same screen is in use. -/
theorem Same.alt (h : Same m m') : m.alt = m'.alt := by
  unfold Modes.alt
  rw [h.isSet, h.isSet, h.isSet]

/-- Two readers that are the same and have read the same parameters. -/
structure Alike (m m' : Modes) : Prop extends Same m m' where
  allParams : m.params = m'.params
  current : m.current = m'.current

theorem Same.alike (h : Same m m') {isPrivate foreign started : Bool} {lead : UInt8}
    (is : m.parse = .csi isPrivate foreign started lead) : Alike m m' :=
  ⟨h, (h.params isPrivate foreign started lead is).1, (h.params isPrivate foreign started lead is).2⟩

/-- Terminals with the same fields behave alike. -/
theorem Alike.of (parse : m.parse = m'.parse) (isSet : ∀ mode, m.isSet mode = m'.isSet mode)
    (keypad : m.keypad = m'.keypad) (kitty : m.kitty = m'.kitty) (otherKeys : m.otherKeys = m'.otherKeys)
    (params : m.params = m'.params) (current : m.current = m'.current) : Alike m m' :=
  ⟨⟨parse, isSet, keypad, kitty, otherKeys, fun _ _ _ _ _ => ⟨params, current⟩⟩, params, current⟩

/-- Where both go on outside of any control sequence, what they had read of parameters does not matter. -/
theorem Same.goes (h : Same m m') {parse : Parse}
    (not_ : ∀ isPrivate foreign started lead, parse ≠ .csi isPrivate foreign started lead) :
    Same { m with parse := parse } { m' with parse := parse } :=
  ⟨rfl, h.isSet, h.keypad, h.kitty, h.otherKeys, fun _ _ _ _ is => absurd is (not_ _ _ _ _)⟩

/-- Setting a mode keeps terminals alike. -/
theorem Alike.setMode (h : Alike m m') (on : Bool) (p : UInt16) : Alike (m.setMode on p) (m'.setMode on p) := by
  have isSet : ∀ mode, (if mode = p then some on else m.set mode).getD (resetValue mode) =
      (if mode = p then some on else m'.set mode).getD (resetValue mode) := fun mode => by
    split
    · rfl
    · exact h.isSet mode
  unfold Modes.setMode
  split
  · split
    · refine .of h.parse isSet h.keypad ?_ h.otherKeys h.allParams h.current
      dsimp only
      rw [h.kitty]
    · exact .of h.parse isSet h.keypad h.kitty h.otherKeys h.allParams h.current
  · exact h

theorem Alike.setModes (h : Alike m m') (on : Bool) (ps : List UInt16) :
    Alike (ps.foldl (Modes.setMode on) m) (ps.foldl (Modes.setMode on) m') := by
  induction ps generalizing m m' with
  | nil => exact h
  | cons p ps ih => exact ih (h.setMode on p)

/-- So does a keyboard operation. -/
theorem Alike.kittyOp (h : Alike m m') (lead : UInt8) : Alike (m.kittyOp lead) (m'.kittyOp lead) := by
  have put (stack : List UInt16) :
      Alike { m with kitty := fun screen => if screen = m.alt then stack else m.kitty screen }
        { m' with params := m.params, kitty := fun screen => if screen = m.alt then stack else m.kitty screen } :=
    .of h.parse h.isSet h.keypad rfl h.otherKeys rfl h.current
  unfold Modes.kittyOp
  simp only [← h.alt, ← h.kitty, ← h.allParams]
  split
  · exact put _
  · split
    · exact put _
    · split
      · exact put _
      · exact h

/-- So does the last byte of a sequence, whatever the sequence is. -/
theorem Alike.final (h : Alike m m') (isPrivate foreign : Bool) (lead b : UInt8) :
    Alike (m.final isPrivate foreign lead b) (m'.final isPrivate foreign lead b) := by
  have start : Alike { m with parse := .ground, params := m.params ++ m.current.toList, current := none }
      { m' with parse := .ground, params := m'.params ++ m'.current.toList, current := none } :=
    .of rfl h.isSet h.keypad h.kitty h.otherKeys (by rw [h.allParams, h.current]) rfl
  unfold Modes.final
  generalize ({ m with parse := .ground, params := m.params ++ m.current.toList, current := none } : Modes) = one at start ⊢
  generalize ({ m' with parse := .ground, params := m'.params ++ m'.current.toList, current := none } : Modes) = two
    at start ⊢
  dsimp only
  have sets : Alike (if isPrivate && !foreign && (b == 'h'.toUInt8 || b == 'l'.toUInt8) then
      one.params.foldl (Modes.setMode (b == 'h'.toUInt8)) one else one)
      (if isPrivate && !foreign && (b == 'h'.toUInt8 || b == 'l'.toUInt8) then
        two.params.foldl (Modes.setMode (b == 'h'.toUInt8)) two else two) := by
    split
    · rw [← start.allParams]
      exact start.setModes _ _
    · exact start
  generalize (if isPrivate && !foreign && (b == 'h'.toUInt8 || b == 'l'.toUInt8) then
      one.params.foldl (Modes.setMode (b == 'h'.toUInt8)) one else one) = three at sets ⊢
  generalize (if isPrivate && !foreign && (b == 'h'.toUInt8 || b == 'l'.toUInt8) then
        two.params.foldl (Modes.setMode (b == 'h'.toUInt8)) two else two) = four at sets ⊢
  have keys : Alike (if b == 'u'.toUInt8 && lead != 0 && !foreign then three.kittyOp lead else three)
      (if b == 'u'.toUInt8 && lead != 0 && !foreign then four.kittyOp lead else four) := by
    split
    · exact sets.kittyOp lead
    · exact sets
  generalize (if b == 'u'.toUInt8 && lead != 0 && !foreign then three.kittyOp lead else three) = five at keys ⊢
  generalize (if b == 'u'.toUInt8 && lead != 0 && !foreign then four.kittyOp lead else four) = six at keys ⊢
  rw [← keys.allParams]
  split
  · exact .of keys.parse keys.isSet keys.keypad keys.kitty rfl rfl keys.current
  · exact keys

theorem Alike.inCsi (h : Alike m m') (isPrivate foreign started : Bool) (lead b : UInt8) :
    Same (m.inCsi isPrivate foreign started lead b) (m'.inCsi isPrivate foreign started lead b) := by
  have goes (parse : Parse) : Same { m with parse := parse } { m' with parse := parse } :=
    ⟨rfl, h.isSet, h.keypad, h.kitty, h.otherKeys, fun _ _ _ _ _ => ⟨h.allParams, h.current⟩⟩
  unfold Modes.inCsi
  split
  · exact goes _
  split
  · exact goes _
  split
  · exact goes _
  split
  · refine ⟨rfl, h.isSet, h.keypad, h.kitty, h.otherKeys, fun _ _ _ _ _ => ⟨h.allParams, ?_⟩⟩
    dsimp only
    rw [h.current]
  split
  · refine ⟨rfl, h.isSet, h.keypad, h.kitty, h.otherKeys, fun _ _ _ _ _ => ⟨?_, rfl⟩⟩
    dsimp only
    rw [h.allParams, h.current]
  split
  · exact (h.final isPrivate foreign lead b).toSame
  split
  · exact goes _
  · exact h.toSame

theorem Same.afterEsc (h : Same m m') (b : UInt8) : Same (m.afterEsc b) (m'.afterEsc b) := by
  unfold Modes.afterEsc
  split
  · exact ⟨rfl, h.isSet, h.keypad, h.kitty, h.otherKeys, fun _ _ _ _ _ => ⟨rfl, rfl⟩⟩
  split
  · exact h.goes nofun
  split
  · exact ⟨rfl, h.isSet, rfl, h.kitty, h.otherKeys, nofun⟩
  split
  · exact ⟨rfl, h.isSet, rfl, h.kitty, h.otherKeys, nofun⟩
  split
  · exact ⟨rfl, fun _ => rfl, rfl, rfl, rfl, nofun⟩
  split
  · exact h.goes nofun
  · exact h.goes nofun

/-- A byte is the same to terminals that are the same. -/
theorem Same.byte (h : Same m m') (b : UInt8) : Same (m.byte b) (m'.byte b) := by
  unfold Modes.byte
  split
  · exact h.goes nofun
  · rw [← h.parse]
    cases is : m.parse with
    | ground =>
        dsimp only
        split
        · exact h.goes nofun
        · exact h
    | esc => exact h.afterEsc b
    | csi isPrivate foreign started lead => exact (h.alike is).inCsi isPrivate foreign started lead b
    | str =>
        dsimp only
        split
        · exact h.goes nofun
        · split
          · exact h.goes nofun
          · exact h
    | strEsc =>
        dsimp only
        split
        · exact h.goes nofun
        · exact h.goes nofun

/-- Two readers that are the same stay so over the same bytes. -/
theorem Same.feed (h : Same m m') (bytes : Bytes) : Same (m.feed bytes) (m'.feed bytes) := by
  induction bytes generalizing m m' with
  | nil => exact h
  | cons b bytes ih => exact ih (h.byte b)

end Modes

end Khor.Term
