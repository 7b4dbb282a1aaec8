/-
Module: Khor.Term.Preamble
Purpose: The preamble of a mode reader puts a fresh reader into its modes. What a reader reached from fresh always
  satisfies is `Sound`: the alternate screen has keyboard flags only while it is in use, no stack is longer than its
  limit, and only tracked modes were ever set.
Trusted boundary: none
Main exports: Modes.Sound, Modes.Sound.feed, Modes.feed_preamble
-/
import Khor.Term.Modes

namespace Khor.Term
namespace Modes

/-- What every reader satisfies that began fresh. -/
structure Sound (m : Modes) : Prop where
  mainOnly : m.alt = false → m.kitty true = []
  short : ∀ screen, (m.kitty screen).length ≤ KITTY_MAX
  keys : m.otherKeys ≤ 2
  known : ∀ mode, tracked mode = false → m.set mode = none

variable {m m' : Modes}

theorem Sound.fresh : Sound fresh := ⟨fun _ => rfl, fun _ => Nat.zero_le _, by decide, fun _ _ => rfl⟩

section

variable (h : Sound m)
include h

/-- Nothing of it hangs on the sequence that is being read. -/
theorem Sound.of (set : m'.set = m.set) (kitty : m'.kitty = m.kitty) (keys : m'.otherKeys = m.otherKeys) :
    Sound m' where
  mainOnly := by
    have same : m'.alt = m.alt := by
      unfold Modes.alt Modes.isSet
      rw [set]
    rw [same, kitty]
    exact h.mainOnly
  short := by
    rw [kitty]
    exact h.short
  keys := by
    rw [keys]
    exact h.keys
  known := by
    rw [set]
    exact h.known

theorem Sound.setMode (on : Bool) (p : UInt16) : Sound (m.setMode on p) := by
  unfold Modes.setMode
  cases follows : tracked p with
  | false => exact h
  | true =>
      have known (mode : UInt16) (not_ : tracked mode = false) : (if mode = p then some on else m.set mode) = none := by
        rw [if_neg (fun is => by rw [is, follows] at not_; cases not_)]
        exact h.known mode not_
      simp only [if_true]
      split
      · refine ⟨fun _ => rfl, fun screen => ?_, h.keys, known⟩
        cases screen
        · exact h.short false
        · exact Nat.zero_le _
      · rename_i stays
        refine ⟨fun main => ?_, h.short, h.keys, known⟩
        refine h.mainOnly ?_
        -- a mode that is set here is none of the alternate screen's, or the alternate screen is in use
        have not_ (mode : UInt16) (is : mode = 47 ∨ mode = 1047 ∨ mode = 1049)
            (off : (if mode = p then some on else m.set mode).getD (resetValue mode) = false) : m.isSet mode = false := by
          by_cases same : mode = p
          · rw [if_pos same] at off
            have : isAlternate p = true := by
              rw [← same]
              rcases is with rfl | rfl | rfl <;> rfl
            simp only [Option.getD_some] at off
            rw [off, this] at stays
            exact absurd rfl stays
          · rw [if_neg same] at off
            exact off
        unfold Modes.alt at main ⊢
        simp only [Bool.or_eq_false_iff] at main ⊢
        exact ⟨⟨not_ 47 (.inl rfl) main.1.1, not_ 1047 (.inr (.inl rfl)) main.1.2⟩,
          not_ 1049 (.inr (.inr rfl)) main.2⟩

theorem Sound.setModes (on : Bool) (ps : List UInt16) : Sound (ps.foldl (Modes.setMode on) m) := by
  induction ps generalizing m with
  | nil => exact h
  | cons p ps ih => exact ih (h.setMode on p)

theorem Sound.kittyOp (lead : UInt8) : Sound (m.kittyOp lead) := by
  have put (stack : List UInt16) (short : stack.length ≤ KITTY_MAX) :
      Sound { m with kitty := fun screen => if screen = m.alt then stack else m.kitty screen } := by
    refine ⟨fun main => ?_, fun screen => ?_, h.keys, h.known⟩
    · have off : m.alt = false := main
      show (if true = m.alt then stack else m.kitty true) = []
      rw [if_neg (by rw [off]; decide)]
      exact h.mainOnly off
    · show (if screen = m.alt then stack else m.kitty screen).length ≤ KITTY_MAX
      split
      · exact short
      · exact h.short screen
  have le := h.short m.alt
  unfold Modes.kittyOp
  dsimp only
  split
  · refine put _ ?_
    rw [List.length_append, List.length_singleton]
    split
    · rw [List.length_tail]
      unfold KITTY_MAX at *
      omega
    · omega
  split
  · refine put _ ?_
    rw [List.length_take]
    omega
  split
  · refine put _ ?_
    rw [List.length_append, List.length_dropLast, List.length_singleton]
    unfold KITTY_MAX at *
    omega
  · exact h

theorem Sound.final (isPrivate foreign : Bool) (lead b : UInt8) : Sound (m.final isPrivate foreign lead b) := by
  have one : Sound { m with parse := .ground, params := m.params ++ m.current.toList, current := none } :=
    h.of rfl rfl rfl
  unfold Modes.final
  generalize ({ m with parse := .ground, params := m.params ++ m.current.toList, current := none } : Modes) = m₁ at one ⊢
  dsimp only
  have two : Sound (if isPrivate && !foreign && (b == 'h'.toUInt8 || b == 'l'.toUInt8) then
      m₁.params.foldl (Modes.setMode (b == 'h'.toUInt8)) m₁ else m₁) := by
    split
    · exact one.setModes _ _
    · exact one
  generalize (if isPrivate && !foreign && (b == 'h'.toUInt8 || b == 'l'.toUInt8) then
      m₁.params.foldl (Modes.setMode (b == 'h'.toUInt8)) m₁ else m₁) = m₂ at two ⊢
  have three : Sound (if b == 'u'.toUInt8 && lead != 0 && !foreign then m₂.kittyOp lead else m₂) := by
    split
    · exact two.kittyOp lead
    · exact two
  generalize (if b == 'u'.toUInt8 && lead != 0 && !foreign then m₂.kittyOp lead else m₂) = m₃ at three ⊢
  split
  · refine ⟨three.mainOnly, three.short, ?_, three.known⟩
    dsimp only
    split
    · assumption
    · decide
  · exact three

theorem Sound.inCsi (isPrivate foreign started : Bool) (lead b : UInt8) :
    Sound (m.inCsi isPrivate foreign started lead b) := by
  unfold Modes.inCsi
  split
  · exact h.of rfl rfl rfl
  split
  · exact h.of rfl rfl rfl
  split
  · exact h.of rfl rfl rfl
  split
  · exact h.of rfl rfl rfl
  split
  · exact h.of rfl rfl rfl
  split
  · exact h.final _ _ _ _
  split
  · exact h.of rfl rfl rfl
  · exact h

theorem Sound.afterEsc (b : UInt8) : Sound (m.afterEsc b) := by
  unfold Modes.afterEsc
  split
  · exact h.of rfl rfl rfl
  split
  · exact h.of rfl rfl rfl
  split
  · exact h.of rfl rfl rfl
  split
  · exact h.of rfl rfl rfl
  split
  · exact Sound.fresh.of rfl rfl rfl
  split
  · exact h.of rfl rfl rfl
  · exact h.of rfl rfl rfl

theorem Sound.byte (b : UInt8) : Sound (m.byte b) := by
  unfold Modes.byte
  split
  · exact h.of rfl rfl rfl
  · cases m.parse with
    | ground =>
        dsimp only
        split
        · exact h.of rfl rfl rfl
        · exact h
    | esc => exact h.afterEsc b
    | csi isPrivate foreign started lead => exact h.inCsi isPrivate foreign started lead b
    | str =>
        dsimp only
        split
        · exact h.of rfl rfl rfl
        · split
          · exact h.of rfl rfl rfl
          · exact h
    | strEsc => exact h.of rfl rfl rfl

theorem Sound.feed (bytes : Bytes) : Sound (m.feed bytes) := by
  induction bytes generalizing m with
  | nil => exact h
  | cons b bytes ih => exact ih (h.byte b)

end

/-! ### Reading what was written -/

theorem Same.ground (is : m.parse = .ground) (parse : m'.parse = .ground)
    (isSet : ∀ mode, m.isSet mode = m'.isSet mode) (keypad : m.keypad = m'.keypad) (kitty : m.kitty = m'.kitty)
    (otherKeys : m.otherKeys = m'.otherKeys) : Same m m' :=
  ⟨is.trans parse.symm, isSet, keypad, kitty, otherKeys, fun _ _ _ _ csi => by rw [is] at csi; cases csi⟩

variable {isPrivate foreign started : Bool} {lead : UInt8}

theorem byte_digit {c : Char} (is : m.parse = .csi isPrivate foreign started lead) (isDigit : c.isDigit = true) :
    m.byte c.toUInt8 = { m with
      parse := .csi isPrivate foreign true lead
      current := some (UInt16.ofNat (min (((m.current.getD 0).toNat * 10) + digitValue c) 65535)) } := by
  have value : c.toUInt8.toNat = c.toNat ∧ 48 ≤ c.toNat ∧ c.toNat ≤ 57 := by
    simp only [Char.isDigit, Bool.and_eq_true, decide_eq_true_eq, ge_iff_le] at isDigit
    have low : (48 : Nat) ≤ c.val.toNat := isDigit.1
    have high : c.val.toNat ≤ 57 := isDigit.2
    refine ⟨?_, low, high⟩
    show c.val.toNat % 256 = c.val.toNat
    omega
  obtain ⟨same, low, high⟩ := value
  have ne (b : UInt8) (out : b.toNat < 48 ∨ 57 < b.toNat) : c.toUInt8 ≠ b := by
    rintro rfl
    omega
  have range : '0'.toUInt8 ≤ c.toUInt8 ∧ c.toUInt8 ≤ '9'.toUInt8 := by
    constructor
    · show ('0'.toUInt8).toNat ≤ c.toUInt8.toNat
      rw [same]
      exact low
    · show c.toUInt8.toNat ≤ ('9'.toUInt8).toNat
      rw [same]
      exact high
  have digit_ : digit m.current c.toUInt8 =
      UInt16.ofNat (min (((m.current.getD 0).toNat * 10) + digitValue c) 65535) := by
    unfold digit digitValue
    rw [same]
    have zero : '0'.toNat = 48 := rfl
    congr 1
    omega
  unfold byte
  rw [if_neg (not_or.mpr ⟨ne _ (by decide), ne _ (by decide)⟩), is]
  dsimp only
  unfold inCsi
  rw [if_neg (ne _ (by decide)), if_neg (fun h => ne _ (by decide) h.1), if_neg (fun h => by
      rcases h.1 with is | is | is
      · exact ne _ (by decide) is
      · exact ne _ (by decide) is
      · exact ne _ (by decide) is), if_pos range, digit_]

/-- A value that is cut at 65535 on the way is cut at the end too. -/
theorem readDigits_cut (text : Text) (value : Nat) :
    min (readDigits (min value 65535) text) 65535 = min (readDigits value text) 65535 := by
  induction text generalizing value with
  | nil =>
      show min (min value 65535) 65535 = min value 65535
      omega
  | cons c text ih =>
      show min (readDigits (min value 65535 * 10 + digitValue c) text) 65535 =
        min (readDigits (value * 10 + digitValue c) text) 65535
      rw [← ih (min value 65535 * 10 + digitValue c), ← ih (value * 10 + digitValue c)]
      have : min (min value 65535 * 10 + digitValue c) 65535 = min (value * 10 + digitValue c) 65535 := by omega
      rw [this]

/-- Digits are read as the number they stand for, saturating. -/
theorem feed_digits {text : Text} (some_ : text ≠ []) (isDigit : ∀ c ∈ text, c.isDigit = true)
    (is : m.parse = .csi isPrivate foreign started lead) : m.feed (text.map Char.toUInt8) = { m with
      parse := .csi isPrivate foreign true lead
      current := some (UInt16.ofNat (min (readDigits (m.current.getD 0).toNat text) 65535)) } := by
  induction text generalizing m started with
  | nil => exact absurd rfl some_
  | cons c text ih =>
      rw [List.map_cons, feed_cons, byte_digit is (isDigit c List.mem_cons_self)]
      cases text with
      | nil => rfl
      | cons d text =>
          rw [ih (List.cons_ne_nil d text) (fun e he => isDigit e (List.mem_cons_of_mem c he)) rfl]
          dsimp only [Option.getD_some]
          rw [UInt16.toNat_ofNat_of_lt' (by unfold UInt16.size; omega), readDigits_cut]
          rfl

/-- A number that fits is read as itself. -/
theorem feed_number (n : UInt16) (is : m.parse = .csi isPrivate foreign started lead) (none_ : m.current = none) :
    m.feed (digits n.toNat) = { m with parse := .csi isPrivate foreign true lead, current := some n } := by
  obtain ⟨some_, isDigit, value⟩ := decimal_spec n.toNat
  unfold digits
  rw [feed_digits some_ (fun c hc => (isDigit c hc).1) is, none_]
  have small : n.toNat < 65536 := n.toNat_lt
  have zero : ((none : Option UInt16).getD 0).toNat = 0 := rfl
  rw [zero, value, Nat.min_eq_left (by omega), UInt16.ofNat_toNat]

/-- Keyboard flags are pushed as one sequence. -/
theorem feed_push (is : m.parse = .ground) (flags : UInt16) (room : (m.kitty m.alt).length < KITTY_MAX) :
    Same (m.feed ([ESC, '['.toUInt8, '>'.toUInt8] ++ digits flags.toNat ++ ['u'.toUInt8]))
      { m with kitty := fun screen => if screen = m.alt then m.kitty m.alt ++ [flags] else m.kitty screen } := by
  have start : m.feed [ESC, '['.toUInt8, '>'.toUInt8] =
      { m with parse := .csi false false true '>'.toUInt8, params := [], current := none } := by
    obtain ⟨parse, _⟩ := m
    cases is
    rfl
  rw [feed_append, feed_append, start, feed_number flags rfl rfl]
  have full : ¬KITTY_MAX ≤ (m.kitty m.alt).length := by omega
  have same : ({ m with
      parse := .csi false false true '>'.toUInt8, params := [], current := some flags } : Modes).byte 'u'.toUInt8 =
      { m with
        parse := .ground, params := [flags], current := none
        kitty := fun screen => if screen = m.alt then
          (if KITTY_MAX ≤ (m.kitty m.alt).length then (m.kitty m.alt).tail else m.kitty m.alt) ++ [flags]
          else m.kitty screen } := rfl
  rw [feed_cons, same, if_neg full]
  exact .ground rfl is (fun _ => rfl) rfl rfl rfl

theorem feed_pushes (is : m.parse = .ground) (stack : List UInt16)
    (room : (m.kitty m.alt).length + stack.length ≤ KITTY_MAX) :
    Same (m.feed (pushes stack))
      { m with kitty := fun screen => if screen = m.alt then m.kitty m.alt ++ stack else m.kitty screen } := by
  induction stack generalizing m with
  | nil =>
      refine .ground is is (fun _ => rfl) rfl ?_ rfl
      funext screen
      show m.kitty screen = if screen = m.alt then m.kitty m.alt ++ [] else m.kitty screen
      split
      · rename_i same
        rw [List.append_nil, same]
      · rfl
  | cons flags stack ih =>
      rw [List.length_cons] at room
      have one := (feed_push is flags (by omega)).feed (pushes stack)
      rw [← feed_append] at one
      refine one.trans ?_
      have rest := ih (m := { m with
        kitty := fun screen => if screen = m.alt then m.kitty m.alt ++ [flags] else m.kitty screen }) is ?_
      · refine rest.trans (.ground is is (fun _ => rfl) rfl ?_ rfl)
        funext screen
        show (if screen = m.alt then (if m.alt = m.alt then m.kitty m.alt ++ [flags] else m.kitty m.alt) ++ stack
          else if screen = m.alt then m.kitty m.alt ++ [flags] else m.kitty screen) =
          if screen = m.alt then m.kitty m.alt ++ flags :: stack else m.kitty screen
        rw [if_pos rfl, List.append_assoc, List.singleton_append]
        split
        · rfl
        · rfl
      · show (if m.alt = m.alt then m.kitty m.alt ++ [flags] else m.kitty m.alt).length + stack.length ≤ KITTY_MAX
        rw [if_pos rfl, List.length_append, List.length_singleton]
        omega

/-- `s` is in the modes of `m` for those in `done`, and for the others either so or as on a fresh terminal. -/
structure Toward (m s : Modes) (done : List UInt16) : Prop where
  parse : s.parse = .ground
  there : ∀ mode ∈ done, s.isSet mode = m.isSet mode
  near : ∀ mode, s.isSet mode = m.isSet mode ∨ s.isSet mode = resetValue mode

theorem tracked_reset : ∀ t ∈ TRACKED, tracked t.1 = true ∧ resetValue t.1 = t.2 ∧
    (t.2 = true → isAlternate t.1 = false) := by
  have all : TRACKED.all (fun t => tracked t.1 && resetValue t.1 == t.2 && (!t.2 || !isAlternate t.1)) = true := by
    decide
  intro t mem
  have one := List.all_eq_true.mp all t mem
  simp only [Bool.and_eq_true, beq_iff_eq, Bool.or_eq_true, Bool.not_eq_true'] at one
  refine ⟨one.1.1, one.1.2, fun on => ?_⟩
  exact one.2.resolve_left (by simp [on])

/-- One mode that is written is read as that mode alone. -/
theorem feed_mode (is : m.parse = .ground) (p : UInt16) (follows : tracked p = true) (on : Bool)
    (screen : on = true ∨ isAlternate p = false) :
    Same (m.feed ([ESC, '['.toUInt8, '?'.toUInt8] ++ digits p.toNat ++ [if on then 'h'.toUInt8 else 'l'.toUInt8]))
      { m with set := fun mode => if mode = p then some on else m.set mode } := by
  have start : m.feed [ESC, '['.toUInt8, '?'.toUInt8] =
      { m with parse := .csi true false true 0, params := [], current := none } := by
    obtain ⟨parse, _⟩ := m
    cases is
    rfl
  rw [feed_append, feed_append, start, feed_number p rfl rfl]
  have same : ({ m with parse := .csi true false true 0, params := [], current := some p } : Modes).byte
      (if on then 'h'.toUInt8 else 'l'.toUInt8) =
      ({ m with parse := .ground, params := [p], current := none } : Modes).setMode on p := by
    cases on <;> rfl
  rw [feed_cons, same]
  unfold Modes.setMode
  rw [if_pos follows]
  have keeps : (!on && isAlternate p) = false := by
    rcases screen with rfl | main
    · rfl
    · rw [main, Bool.and_false]
  simp only [keeps, Bool.false_eq_true, if_false]
  exact .ground rfl is (fun _ => rfl) rfl rfl rfl

theorem Toward.step {s : Modes} {done : List UInt16} (h : Toward m s done) {t : UInt16 × Bool} (ht : t ∈ TRACKED) :
    Toward m (s.feed (m.modeBytes t)) (t.1 :: done) ∧ (s.feed (m.modeBytes t)).keypad = s.keypad ∧
      (s.feed (m.modeBytes t)).kitty = s.kitty ∧ (s.feed (m.modeBytes t)).otherKeys = s.otherKeys := by
  obtain ⟨follows, reset, main⟩ := tracked_reset t ht
  have stays (same : m.isSet t.1 = t.2) : Toward m s (t.1 :: done) := by
    refine ⟨h.parse, fun mode hmode => ?_, h.near⟩
    rcases List.mem_cons.mp hmode with rfl | hmode
    · rcases h.near t.1 with near | near
      · exact near
      · rw [near, reset, same]
    · exact h.there mode hmode
  unfold modeBytes
  cases found : m.set t.1 with
  | none =>
      refine ⟨stays ?_, rfl, rfl, rfl⟩
      unfold Modes.isSet
      rw [found, Option.getD_none, reset]
  | some on =>
      dsimp only
      have value : m.isSet t.1 = on := by
        unfold Modes.isSet
        rw [found]
        rfl
      by_cases differs : on = t.2
      · rw [if_neg (by simp [differs])]
        exact ⟨stays (value.trans differs), rfl, rfl, rfl⟩
      · rw [if_pos (by simpa using differs)]
        have same := feed_mode (m := s) h.parse t.1 follows on (by
          cases on with
          | true => exact .inl rfl
          | false => exact .inr (main (by simpa using differs)))
        generalize s.feed ([ESC, '['.toUInt8, '?'.toUInt8] ++ digits t.1.toNat ++
          [if on then 'h'.toUInt8 else 'l'.toUInt8]) = s' at same ⊢
        have set (mode : UInt16) : s'.isSet mode = if mode = t.1 then m.isSet mode else s.isSet mode := by
          rw [same.isSet mode]
          show (if mode = t.1 then some on else s.set mode).getD (resetValue mode) = _
          split
          · rename_i here
            rw [here, value]
            rfl
          · rfl
        refine ⟨⟨same.parse.trans h.parse, fun mode hmode => ?_, fun mode => ?_⟩, same.keypad, same.kitty,
          same.otherKeys⟩
        · rw [set]
          split
          · rfl
          · rename_i other
            exact h.there mode ((List.mem_cons.mp hmode).resolve_left other)
        · rw [set]
          split
          · exact .inl rfl
          · exact h.near mode

theorem Toward.run {s : Modes} {done : List UInt16} (h : Toward m s done) {ts : List (UInt16 × Bool)}
    (known : ∀ t ∈ ts, t ∈ TRACKED) :
    (∀ t ∈ ts, (s.feed (ts.flatMap m.modeBytes)).isSet t.1 = m.isSet t.1) ∧
      (∀ mode ∈ done, (s.feed (ts.flatMap m.modeBytes)).isSet mode = m.isSet mode) ∧
      Toward m (s.feed (ts.flatMap m.modeBytes)) [] ∧
      (s.feed (ts.flatMap m.modeBytes)).keypad = s.keypad ∧ (s.feed (ts.flatMap m.modeBytes)).kitty = s.kitty ∧
      (s.feed (ts.flatMap m.modeBytes)).otherKeys = s.otherKeys := by
  induction ts generalizing s done with
  | nil => exact ⟨nofun, h.there, ⟨h.parse, nofun, h.near⟩, rfl, rfl, rfl⟩
  | cons t ts ih =>
      obtain ⟨next, keypad, kitty, keys⟩ := h.step (known t (.head _))
      obtain ⟨these, before, at_, keypad', kitty', keys'⟩ := ih next fun t ht => known t (.tail _ ht)
      rw [List.flatMap_cons, feed_append]
      refine ⟨fun u hu => ?_, fun mode hmode => before mode (.tail _ hmode), at_,
        keypad'.trans keypad, kitty'.trans kitty, keys'.trans keys⟩
      rcases List.mem_cons.mp hu with rfl | hu
      · exact before _ (.head _)
      · exact these u hu

/-- After the modes a reader that was fresh is in those of `m`. -/
theorem feed_modes {s : Modes} (known : ∀ mode, tracked mode = false → m.set mode = none) (is : s.parse = .ground)
    (fresh_ : s.set = fun _ => none) :
    Same (s.feed (TRACKED.flatMap m.modeBytes)) { s with set := m.set } := by
  have start : Toward m s [] := ⟨is, nofun, fun mode => .inr (by unfold Modes.isSet; rw [fresh_]; rfl)⟩
  obtain ⟨these, -, toward, keypad, kitty, keys⟩ := @Toward.run m s [] start TRACKED fun _ ht => ht
  refine .ground toward.parse is (fun mode => ?_) keypad kitty keys
  show _ = m.isSet mode
  cases follows : tracked mode with
  | true =>
      obtain ⟨t, ht, same⟩ := List.any_eq_true.mp follows
      rw [← eq_of_beq same]
      exact these t ht
  | false =>
      rcases toward.near mode with near | near
      · exact near
      · rw [near]
        unfold Modes.isSet
        rw [known mode follows]
        rfl

theorem feed_otherKeys (is : m.parse = .ground) {v : UInt16} (le : v ≤ 2) :
    Same (m.feed ([ESC, '['.toUInt8, '>'.toUInt8, '4'.toUInt8, ';'.toUInt8] ++ digits v.toNat ++ ['m'.toUInt8]))
      { m with otherKeys := v } := by
  have start : m.feed [ESC, '['.toUInt8, '>'.toUInt8, '4'.toUInt8, ';'.toUInt8] =
      { m with parse := .csi false false true '>'.toUInt8, params := [4], current := none } := by
    obtain ⟨parse, _⟩ := m
    cases is
    rfl
  rw [feed_append, feed_append, start, feed_number v rfl rfl]
  have same : ({ m with
      parse := .csi false false true '>'.toUInt8, params := [4], current := some v } : Modes).byte 'm'.toUInt8 =
      { m with parse := .ground, params := [4, v], current := none, otherKeys := if v ≤ 2 then v else 0 } := rfl
  rw [feed_cons, same, if_pos le]
  exact .ground rfl is (fun _ => rfl) rfl rfl rfl

theorem feed_keypad (is : m.parse = .ground) : m.feed [ESC, '='.toUInt8] = { m with keypad := true } := by
  obtain ⟨parse, _⟩ := m
  cases is
  rfl

/-- The preamble puts a fresh reader into the modes it was written for. -/
theorem feed_preamble (sound : Sound m) : Same (fresh.feed m.preamble) { m with parse := .ground } := by
  unfold preamble
  rw [feed_append, feed_append, feed_append, feed_append]
  -- the main screen's keyboard flags
  have one := feed_pushes (m := fresh) rfl (m.kitty false) (by
    show 0 + _ ≤ _
    rw [Nat.zero_add]
    exact sound.short false)
  have kitty₁ : (fun screen => if screen = fresh.alt then fresh.kitty fresh.alt ++ m.kitty false else fresh.kitty screen) =
      fun screen => if screen then [] else m.kitty false := by
    funext screen
    cases screen <;> rfl
  rw [kitty₁] at one
  -- the tracked modes
  have two := (one.feed (TRACKED.flatMap m.modeBytes)).trans (feed_modes sound.known rfl rfl)
  -- the alternate screen's keyboard flags
  have three := @Same.trans _ _ { fresh with set := m.set, kitty := m.kitty } (two.feed (pushes (m.kitty true))) (by
    have alt : ∀ k, Modes.alt { fresh with set := m.set, kitty := k } = m.alt := fun _ => rfl
    cases screen : m.alt with
    | false =>
        rw [sound.mainOnly screen]
        refine .ground rfl rfl (fun _ => rfl) rfl ?_ rfl
        funext side
        cases side
        · rfl
        · exact (sound.mainOnly screen).symm
    | true =>
        refine (feed_pushes rfl (m.kitty true) ?_).trans (.ground rfl rfl (fun _ => rfl) rfl ?_ rfl)
        · rw [alt, screen]
          show 0 + _ ≤ _
          rw [Nat.zero_add]
          exact sound.short true
        · funext side
          rw [alt, screen]
          cases side
          · rfl
          · rfl)
  -- the other keys
  have four := @Same.trans _ _ { fresh with set := m.set, kitty := m.kitty, otherKeys := m.otherKeys }
    (three.feed (if 0 < m.otherKeys then
      [ESC, '['.toUInt8, '>'.toUInt8, '4'.toUInt8, ';'.toUInt8] ++ digits m.otherKeys.toNat ++ ['m'.toUInt8]
      else [])) (by
    split
    · exact (feed_otherKeys rfl sound.keys).trans (.refl _)
    · rename_i none_
      have zero : m.otherKeys = 0 := by
        have : ¬0 < m.otherKeys.toNat := none_
        exact UInt16.toNat_inj.mp (Nat.eq_zero_of_not_pos this)
      refine .ground rfl rfl (fun _ => rfl) rfl rfl ?_
      exact zero.symm)
  -- the keypad
  refine (four.feed (if m.keypad then [ESC, '='.toUInt8] else [])).trans ?_
  cases keypad : m.keypad with
  | true =>
      rw [if_pos rfl, feed_keypad rfl]
      exact .ground rfl rfl (fun _ => rfl) rfl rfl rfl
  | false => exact .ground rfl rfl (fun _ => rfl) rfl rfl rfl

end Modes
end Khor.Term
