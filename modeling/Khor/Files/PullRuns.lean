/-
Module: Khor.Files.PullRuns
Purpose: A pull lands what the far file held at some moment, contributes nothing of another file, cleans up after itself
  and ends.
Trusted boundary: none
Main exports: Holds, Inv, Inv.step, pulls_land_one_version, pulls_land_torn
-/
import Khor.Files.Pull

namespace Khor.PullInto

/-! ### The invariant -/

/-- The part has the first bytes of what was seen under the stamp. -/
def Holds (w : World) (src : Source) (stamp : Stamp) (offset : Nat) : Prop :=
  ∃ all, (stamp, all) ∈ w.seen src ∧ w.part = some (all.take offset) ∧ offset ≤ all.length

/-- The bytes are those that were seen under the stamp at the offset. -/
def Good (w : World) (src : Source) (offset : Nat) (stamp : Stamp) (bytes : Bytes) : Prop :=
  ∃ all n, (stamp, all) ∈ w.seen src ∧ bytes = (all.drop offset).take n

def GoodAnswer (w : World) (src : Source) : Nat × Answer → Prop
  | (offset, .slice stamp bytes) => Good w src offset stamp bytes
  | _ => True

def GoodAsk (w : World) (src : Source) : Nat × Ask → Prop
  | (offset, .answered a) => GoodAnswer w src (offset, a)
  | (_, .looked stamp was) => (stamp, was) ∈ w.seen src
  | _ => True

/-- Between two slices: nothing is held yet, or what the stamp and the note say. -/
def Ready (w : World) (p : Pull) : Prop :=
  match p.contract with
  | none => p.offset = 0 ∧ w.part = some []
  | some stamp =>
      Holds w p.call.src stamp p.offset ∧ (w.note = none ∨ ∃ n, w.note = some n ∧ n.src = p.call.src ∧ n.stamp = stamp)

/-- What is there by where the pull is. -/
def Own (w : World) : Prop :=
  match w.phase with
  | .looping p => Ready w p
  | .asked p wire => Ready w p ∧ ∀ x ∈ wire, GoodAsk w p.call.src x
  | .handling p all => Ready w p ∧ ∀ x ∈ all, GoodAnswer w p.call.src x
  | .noting p stamp bytes rest =>
      p.contract = some stamp ∧ p.offset = 0 ∧ w.part = some [] ∧ Good w p.call.src 0 stamp bytes ∧
        ∀ x ∈ rest, GoodAnswer w p.call.src x
  | .writing p stamp bytes rest =>
      p.contract = some stamp ∧ Ready w p ∧ Good w p.call.src p.offset stamp bytes ∧
        (∀ x ∈ rest, GoodAnswer w p.call.src x) ∧ (bytes ≠ [] ∨ stamp.total = 0)
  | .restarting _ => ∃ held, w.part = some held
  | .moving p => ∃ bytes, w.part = some bytes ∧ bytes ∈ w.past p.call.src
  | .unnoting p => ∃ bytes, w.dest = some bytes ∧ bytes ∈ w.past p.call.src
  | .failing2 c => c.resume = false → w.part = none
  | .returned c true => ∃ bytes, w.dest = some bytes ∧ bytes ∈ w.past c.src
  | .returned c false => c.resume = false → w.part = none ∧ w.note = none
  | _ => True

structure Inv (w : World) : Prop where
  seenOne : ∀ src stamp all all', (stamp, all) ∈ w.seen src → (stamp, all') ∈ w.seen src → all = all'
  seenPast : ∀ src stamp all, (stamp, all) ∈ w.seen src → all ∈ w.past src ∧ stamp.total = all.length
  farPast : ∀ src v, w.far src = some v → v.bytes ∈ w.past src
  noteSeen : ∀ n, w.note = some n → ∃ all, (n.stamp, all) ∈ w.seen n.src
  noteOf : ∀ n held, w.note = some n → w.part = some held → ∃ all, (n.stamp, all) ∈ w.seen n.src ∧ held <+: all
  own : Own w

variable {w w' : World} {p : Pull} {wire : List (Nat × Ask)} {all : List (Nat × Answer)} {stamp : Stamp}
  {offset k : Nat} {ask : Ask}

/-- A step of this machine. -/
theorem Inv.goes (inv : Inv w) (far : w'.far = w.far) (seen : w'.seen = w.seen) (past : w'.past = w.past)
    (noteSeen : ∀ n, w'.note = some n → ∃ all, (n.stamp, all) ∈ w.seen n.src)
    (noteOf : ∀ n held, w'.note = some n → w'.part = some held → ∃ all, (n.stamp, all) ∈ w.seen n.src ∧ held <+: all)
    (own : Own w') : Inv w' where
  seenOne := by rw [seen]; exact inv.seenOne
  seenPast := by rw [seen, past]; exact inv.seenPast
  farPast := by rw [far, past]; exact inv.farPast
  noteSeen := by rw [seen]; exact noteSeen
  noteOf := by rw [seen]; exact noteOf
  own := own

/-- Only where the pull is changes. -/
theorem Inv.turns (inv : Inv w) {phase : Phase} (own : Own { w with phase }) : Inv { w with phase } :=
  inv.goes rfl rfl rfl inv.noteSeen inv.noteOf own

theorem Inv.phase (inv : Inv w) {phase : Phase} (is : w.phase = phase) : Own { w with phase } := by
  have own := inv.own
  have same : { w with phase } = w := by rw [← is]
  rw [same]
  exact own

/-! ### Steps of this machine -/

theorem open_inv (inv : Inv w) (fault : Bool) (meets : w.Meets (.open_ fault)) : Inv (w.open_ fault) := by
  unfold World.open_
  split
  · rename_i c is
    split
    · rename_i failed
      exact inv.turns fun resume => meets c is failed resume
    · split
      · rename_i stamp had held
        unfold World.held at held
        split at held
        · rename_i n bytes note part
          split at held
          · rename_i fits
            have fits : n.src = c.src ∧ bytes.length ≤ n.stamp.total := by simpa using fits
            cases held
            obtain ⟨all, seen, held⟩ := inv.noteOf n bytes note part
            refine inv.turns ⟨⟨all, fits.1 ▸ seen, ?_, held.length_le⟩, .inr ⟨n, note, fits.1, rfl⟩⟩
            exact part.trans (congrArg some (List.prefix_iff_eq_take.mp held))
          · cases held
        · cases held
      · refine inv.goes rfl rfl rfl inv.noteSeen ?_ ⟨rfl, rfl⟩
        intro n held note part
        cases part
        obtain ⟨all, seen⟩ := inv.noteSeen n note
        exact ⟨all, seen, List.nil_prefix⟩
  · exact inv

/-- What is held whole is what was seen. -/
theorem Holds.whole {w : World} (inv : Inv w) {src : Source} {stamp : Stamp} {offset : Nat} (holds : Holds w src stamp offset)
    (all : stamp.total ≤ offset) : ∃ bytes, w.part = some bytes ∧ bytes ∈ w.past src := by
  obtain ⟨whole, seen, part, le⟩ := holds
  obtain ⟨past, total⟩ := inv.seenPast src stamp whole seen
  refine ⟨whole, ?_, past⟩
  rw [part, List.take_of_length_le (by omega)]

theorem offsets_nil (none_ : p.offsets = []) : ∃ stamp, p.contract = some stamp ∧ stamp.total ≤ p.offset := by
  unfold Pull.offsets at none_
  split at none_
  · cases none_
  · rename_i stamp is
    refine ⟨stamp, is, ?_⟩
    have range : List.range PULL_AHEAD = 0 :: [1, 2, 3, 4, 5, 6, 7] := rfl
    rw [range, List.map_cons, List.takeWhile_cons] at none_
    split at none_
    · cases none_
    · rename_i not_
      simpa using not_

theorem ask_inv (inv : Inv w) (stopped : Bool) : Inv (w.ask stopped) := by
  unfold World.ask
  split
  · rename_i p is
    have ready : Ready w p := inv.phase is
    split
    · exact inv.turns trivial
    · split
      · rename_i none_
        obtain ⟨stamp, contract, le⟩ := offsets_nil none_
        unfold Ready at ready
        rw [contract] at ready
        exact inv.turns (ready.1.whole inv le)
      · refine inv.turns ⟨ready, ?_⟩
        intro x mem
        obtain ⟨offset, _, rfl⟩ := List.mem_map.mp mem
        trivial
  · exact inv

/-- The answers that came are among what is on the wire. -/
theorem answers_mem (is : answers wire = some all) : ∀ x ∈ all, (x.1, .answered x.2) ∈ wire := by
  induction wire generalizing all with
  | nil =>
      cases is
      nofun
  | cons x wire ih =>
      obtain ⟨offset, ask⟩ := x
      cases ask with
      | answered a =>
          obtain ⟨more, rest, rfl⟩ := Option.map_eq_some_iff.mp is
          intro y mem
          obtain rfl | mem := List.mem_cons.mp mem
          · exact .head _
          · exact .tail _ (ih rest y mem)
      | waiting | looked => cases is

theorem answers_good {src : Source} (is : answers wire = some all) (good : ∀ x ∈ wire, GoodAsk w src x) :
    ∀ x ∈ all, GoodAnswer w src x :=
  fun x mem => good _ (answers_mem is x mem)

section

variable (inv : Inv w)
include inv

theorem gather_inv : Inv w.gather := by
  unfold World.gather
  split
  · rename_i p wire is
    obtain ⟨ready, good⟩ : Ready w p ∧ ∀ x ∈ wire, GoodAsk w p.call.src x := inv.phase is
    split
    · rename_i all gathered
      exact inv.turns ⟨ready, answers_good gathered good⟩
    · exact inv
  · exact inv

/-- A slice is taken up after the stamp is known. -/
theorem Inv.takes {bytes : Bytes} {rest : List (Nat × Answer)} (contract : p.contract = some stamp)
    (ready : Ready w p) (good : Good w p.call.src p.offset stamp bytes)
    (rests : ∀ x ∈ rest, GoodAnswer w p.call.src x) : Inv { w with phase := p.takes stamp bytes rest } := by
  unfold Pull.takes
  split
  · exact inv.turns trivial
  · rename_i some_
    refine inv.turns ⟨contract, ready, good, rests, ?_⟩
    by_cases none_ : bytes = []
    · right
      have : ¬ 0 < stamp.total := by simpa [none_] using some_
      omega
    · exact .inl none_

theorem handle_inv : Inv w.handle := by
  unfold World.handle
  split
  · rename_i p is
    obtain ⟨ready, _⟩ : Ready w p ∧ _ := inv.phase is
    exact inv.turns ready
  · rename_i p offset a rest is
    obtain ⟨ready, good⟩ : Ready w p ∧ ∀ x ∈ (offset, a) :: rest, GoodAnswer w p.call.src x := inv.phase is
    have rests : ∀ x ∈ rest, GoodAnswer w p.call.src x := fun x mem => good x (.tail _ mem)
    split
    · rename_i here
      split
      · rename_i stamp bytes
        have its : Good w p.call.src p.offset stamp bytes := here ▸ good _ (.head _)
        split
        · rename_i contract
          split
          · exact inv.turns trivial
          · unfold Ready at ready
            rw [contract] at ready
            exact inv.turns ⟨rfl, ready.1, ready.2, ready.1 ▸ its, rests⟩
        · rename_i contract is'
          split
          · rename_i same
            exact inv.takes (same ▸ is') ready its rests
          · split
            · unfold Ready at ready
              rw [is'] at ready
              obtain ⟨⟨all, _, part, _⟩, _⟩ := ready
              exact inv.turns ⟨_, part⟩
            · exact inv.turns trivial
      · exact inv.turns trivial
      · exact inv.turns trivial
      · split
        · rename_i resume
          exact inv.turns fun not_ => nomatch resume.symm.trans not_
        · exact inv.turns trivial
    · exact inv.turns ready
  · exact inv

theorem note_inv (fault : Option Bool) (meets : w.Meets (.note fault)) : Inv (w.writeNote fault) := by
  unfold World.writeNote
  split
  · rename_i p stamp bytes rest is
    obtain ⟨contract, offset, part, good, rests⟩ :
        p.contract = some stamp ∧ p.offset = 0 ∧ w.part = some [] ∧ Good w p.call.src 0 stamp bytes ∧
          ∀ x ∈ rest, GoodAnswer w p.call.src x := inv.phase is
    obtain ⟨all, n, seen, _⟩ := good
    have written {note : Option PullNote} (notes : note = none ∨ note = some ⟨p.call.src, stamp⟩) :
        Inv { w with phase := p.takes stamp bytes rest, note } := by
      have noted : Inv { w with phase := .failing p.call, note } := by
        refine inv.goes rfl rfl rfl ?_ ?_ trivial
        · intro k is
          obtain rfl | rfl := notes
          · cases is
          · cases is
            exact ⟨all, seen⟩
        · intro k held is part'
          cases part.symm.trans part'
          obtain rfl | rfl := notes
          · cases is
          · cases is
            exact ⟨all, seen, List.nil_prefix⟩
      refine noted.takes contract ?_ ⟨all, n, seen, by rw [offset]; assumption⟩ rests
      unfold Ready
      rw [contract]
      refine ⟨⟨all, seen, ?_, by omega⟩, ?_⟩
      · rw [offset]
        exact part
      · obtain rfl | rfl := notes
        · exact .inl rfl
        · exact .inr ⟨_, rfl, rfl, rfl⟩
    cases fault with
    | none => exact written (.inr rfl)
    | some stays =>
        cases stays with
        | true => exact written (.inl (meets rfl))
        | false => exact written (.inl rfl)
  · exact inv

/-- More bytes of what was seen. -/
theorem Holds.append {src : Source} {stamp : Stamp} {offset : Nat} {bytes : Bytes}
    (holds : Holds w src stamp offset) (good : Good w src offset stamp bytes) :
    ∃ all, (stamp, all) ∈ w.seen src ∧ offset + bytes.length ≤ all.length ∧
      ∀ k, w.append (bytes.take k) = some (all.take (offset + (bytes.take k).length)) := by
  obtain ⟨all, seen, part, le⟩ := holds
  obtain ⟨all', n, seen', rfl⟩ := good
  obtain rfl := inv.seenOne src stamp _ _ seen seen'
  refine ⟨all, seen, ?_, fun k => ?_⟩
  · simp
    omega
  · unfold World.append
    rw [part, Option.map_some, List.take_add, List.take_take]
    congr 2
    simp [List.take_eq_take_iff]

theorem Inv.appends {p : Pull} {stamp : Stamp} {bytes : Bytes} (contract : p.contract = some stamp)
    (ready : Ready w p) (good : Good w p.call.src p.offset stamp bytes) (k : Nat) {phase : Phase}
    (own : Own { w with phase, part := w.append (bytes.take k) }) : Inv { w with phase, part := w.append (bytes.take k) } := by
  unfold Ready at ready
  rw [contract] at ready
  obtain ⟨all, seen, _, appended⟩ := ready.1.append inv good
  refine inv.goes rfl rfl rfl inv.noteSeen ?_ own
  intro n held note part
  obtain none_ | ⟨n', note', src, stamp'⟩ := ready.2
  · cases none_.symm.trans note
  · cases note'.symm.trans note
    cases (appended k).symm.trans part
    exact ⟨all, src ▸ stamp' ▸ seen, List.take_prefix _ _⟩

theorem write_inv (fault : Option Nat) : Inv (w.write fault) := by
  unfold World.write
  split
  · rename_i p stamp bytes rest k is
    obtain ⟨contract, ready, good, _, _⟩ : p.contract = some stamp ∧ Ready w p ∧ Good w p.call.src p.offset stamp bytes ∧
      (∀ x ∈ rest, GoodAnswer w p.call.src x) ∧ (bytes ≠ [] ∨ stamp.total = 0) := inv.phase is
    exact inv.appends contract ready good k trivial
  · rename_i p stamp bytes rest is
    obtain ⟨contract, ready, good, rests, _⟩ : p.contract = some stamp ∧ Ready w p ∧
      Good w p.call.src p.offset stamp bytes ∧ (∀ x ∈ rest, GoodAnswer w p.call.src x) ∧ (bytes ≠ [] ∨ stamp.total = 0) :=
      inv.phase is
    have both := ready
    unfold Ready at both
    rw [contract] at both
    obtain ⟨all, seen, le, appended⟩ := both.1.append inv good
    have whole := appended bytes.length
    rw [List.take_length] at whole
    have goes (phase : Phase) (own : Own { w with phase, part := w.append bytes }) :
        Inv { w with phase, part := w.append bytes } := by
      have appends := @Inv.appends w inv p stamp bytes contract ready good bytes.length phase
      rw [List.take_length] at appends
      exact appends own
    refine goes _ ?_
    split
    · rename_i ends
      obtain ⟨past, total⟩ := inv.seenPast _ _ _ seen
      refine ⟨all, ?_, past⟩
      change w.append bytes = some all
      rw [whole, List.take_of_length_le (by omega)]
    · refine ⟨?_, rests⟩
      unfold Ready
      dsimp only
      rw [contract]
      exact ⟨⟨all, seen, whole, le⟩, both.2⟩
  · exact inv

theorem restart_inv (fault : Bool) (meets : w.Meets (.restart fault)) : Inv (w.restart fault) := by
  obtain rfl : fault = false := meets
  unfold World.restart
  split
  · rename_i p is
    obtain ⟨held, part⟩ : ∃ held, w.part = some held := inv.phase is
    refine inv.goes rfl rfl rfl inv.noteSeen ?_ ?_
    · intro n held' note part'
      obtain ⟨all, seen⟩ := inv.noteSeen n note
      obtain ⟨_, _, rfl⟩ := Option.map_eq_some_iff.mp part'
      exact ⟨all, seen, List.nil_prefix⟩
    · exact ⟨rfl, by simp [part]⟩
  · exact inv

theorem rename_inv (fault : Bool) (meets : w.Meets (.rename fault)) : Inv (w.rename fault) := by
  unfold World.rename
  split
  · rename_i p is
    obtain ⟨bytes, part, past⟩ : ∃ bytes, w.part = some bytes ∧ bytes ∈ w.past p.call.src := inv.phase is
    split
    · rename_i failed
      exact inv.turns fun resume => nomatch failed.symm.trans (meets p is resume)
    · exact inv.goes rfl rfl rfl inv.noteSeen (fun _ _ _ part => nomatch part) ⟨bytes, part, past⟩
  · exact inv

theorem unnote_inv (fault : Bool) : Inv (w.unnote fault) := by
  unfold World.unnote
  split
  · rename_i p is
    obtain ⟨bytes, dest, past⟩ : ∃ bytes, w.dest = some bytes ∧ bytes ∈ w.past p.call.src := inv.phase is
    cases fault with
    | true => exact inv.goes rfl rfl rfl inv.noteSeen inv.noteOf ⟨bytes, dest, past⟩
    | false => exact inv.goes rfl rfl rfl (fun _ note => nomatch note) (fun _ _ note => nomatch note) ⟨bytes, dest, past⟩
  · exact inv

theorem removePart_inv (fault : Bool) (meets : w.Meets (.removePart fault)) :
    Inv (w.removePart fault) := by
  obtain rfl : fault = false := meets
  unfold World.removePart
  split
  · exact inv.goes rfl rfl rfl inv.noteSeen (fun _ _ _ part => nomatch part) fun _ => rfl
  · exact inv

theorem removeNote_inv (fault : Bool) (meets : w.Meets (.removeNote fault)) :
    Inv (w.removeNote fault) := by
  obtain rfl : fault = false := meets
  unfold World.removeNote
  split
  · rename_i c is
    have gone : c.resume = false → w.part = none := inv.phase is
    exact inv.goes rfl rfl rfl (fun _ note => nomatch note) (fun _ _ note => nomatch note) fun resume => ⟨gone resume, rfl⟩
  · exact inv

theorem kill_inv (k : Nat) : Inv (w.kill k) := by
  unfold World.kill
  split
  · rename_i p stamp bytes rest is
    obtain ⟨contract, ready, good, _, _⟩ : p.contract = some stamp ∧ Ready w p ∧ Good w p.call.src p.offset stamp bytes ∧
      (∀ x ∈ rest, GoodAnswer w p.call.src x) ∧ (bytes ≠ [] ∨ stamp.total = 0) := inv.phase is
    exact inv.appends contract ready good k trivial
  · exact inv.turns trivial

end

/-! ### Steps of the far machine -/

theorem GoodAnswer.mono {w w' : World} {src : Source} (seen : ∀ s all, (s, all) ∈ w.seen src → (s, all) ∈ w'.seen src)
    {x : Nat × Answer} (good : GoodAnswer w src x) : GoodAnswer w' src x := by
  obtain ⟨offset, a⟩ := x
  cases a with
  | slice stamp bytes =>
      obtain ⟨all, n, mem, is⟩ := good
      exact ⟨all, n, seen _ _ mem, is⟩
  | _ => trivial

theorem GoodAsk.mono {w w' : World} {src : Source} (seen : ∀ s all, (s, all) ∈ w.seen src → (s, all) ∈ w'.seen src)
    {x : Nat × Ask} (good : GoodAsk w src x) : GoodAsk w' src x := by
  obtain ⟨offset, a⟩ := x
  cases a with
  | answered a => exact GoodAnswer.mono seen good
  | looked stamp was => exact seen _ _ good
  | waiting => trivial

theorem Ready.mono {w w' : World} {p : Pull} (part : w'.part = w.part) (note : w'.note = w.note)
    (seen : ∀ s all, (s, all) ∈ w.seen p.call.src → (s, all) ∈ w'.seen p.call.src) (ready : Ready w p) : Ready w' p := by
  unfold Ready at ready ⊢
  split
  · rename_i contract
    rw [contract] at ready
    exact ⟨ready.1, part.trans ready.2⟩
  · rename_i stamp contract
    rw [contract] at ready
    obtain ⟨⟨all, mem, held, le⟩, noted⟩ := ready
    exact ⟨⟨all, seen _ _ mem, part.trans held, le⟩, note ▸ noted⟩

/-- An ask becomes another one that is right. -/
theorem Inv.becomes (inv : Inv w) (is : w.phase = .asked p wire) (k : Nat) (good : GoodAsk w p.call.src (offset, ask)) :
    Inv (w.become p wire k offset ask) := by
  obtain ⟨ready, goods⟩ : Ready w p ∧ ∀ x ∈ wire, GoodAsk w p.call.src x := inv.phase is
  refine inv.turns ⟨ready, fun x mem => ?_⟩
  obtain mem | rfl := List.mem_or_eq_of_mem_set mem
  · exact goods x mem
  · exact good

theorem answer_inv (inv : Inv w) (k : Nat) (a : Answer) (none_ : ∀ stamp bytes, a ≠ .slice stamp bytes) :
    Inv (w.answer k a) := by
  unfold World.answer
  have good (w : World) (src : Source) (offset : Nat) : GoodAsk w src (offset, .answered a) := by
    cases a with
    | slice stamp bytes => exact absurd rfl (none_ stamp bytes)
    | _ => trivial
  split
  · rename_i p wire is
    split
    · exact inv.becomes is k (good w _ _)
    · exact inv.becomes is k (good w _ _)
    · exact inv
  · exact inv

theorem look_inv (inv : Inv w) (k : Nat) (steady : w.Steady (.look k)) : Inv (w.look k) := by
  unfold World.look
  split
  · rename_i p wire is
    split
    · rename_i offset there
      split
      · rename_i v far
        split
        · exact inv.becomes is k trivial
        · obtain ⟨ready, goods⟩ : Ready w p ∧ ∀ x ∈ wire, GoodAsk w p.call.src x := inv.phase is
          have mono (src : Source) (s : Stamp) (all : Bytes) (mem : (s, all) ∈ w.seen src) :
              (s, all) ∈ if src = p.call.src then (v.stamp, v.bytes) :: w.seen src else w.seen src := by
            split
            · exact .tail _ mem
            · exact mem
          have cases_ {src : Source} {s : Stamp} {all : Bytes}
              (mem : (s, all) ∈ if src = p.call.src then (v.stamp, v.bytes) :: w.seen src else w.seen src) :
              src = p.call.src ∧ s = v.stamp ∧ all = v.bytes ∨ (s, all) ∈ w.seen src := by
            split at mem
            · rename_i same
              obtain here | mem := List.mem_cons.mp mem
              · cases here
                exact .inl ⟨same, rfl, rfl⟩
              · exact .inr mem
            · exact .inr mem
          exact
            { seenOne := by
                intro src s all all' mem mem'
                obtain ⟨rfl, rfl, rfl⟩ | mem := cases_ mem
                · obtain ⟨_, _, rfl⟩ | mem' := cases_ mem'
                  · rfl
                  · exact (steady p wire offset v all' is there far mem').symm
                · obtain ⟨rfl, rfl, rfl⟩ | mem' := cases_ mem'
                  · exact steady p wire offset v all is there far mem
                  · exact inv.seenOne src s all all' mem mem'
              seenPast := by
                intro src s all mem
                obtain ⟨rfl, rfl, rfl⟩ | mem := cases_ mem
                · exact ⟨inv.farPast _ v far, rfl⟩
                · exact inv.seenPast src s all mem
              farPast := inv.farPast
              noteSeen := by
                intro n note
                obtain ⟨all, mem⟩ := inv.noteSeen n note
                exact ⟨all, mono _ _ _ mem⟩
              noteOf := by
                intro n held note part
                obtain ⟨all, mem, prefix_⟩ := inv.noteOf n held note part
                exact ⟨all, mono _ _ _ mem, prefix_⟩
              own := by
                refine ⟨@Ready.mono w _ p rfl rfl (mono p.call.src) ready, fun x mem => ?_⟩
                obtain mem | rfl := List.mem_or_eq_of_mem_set mem
                · exact @GoodAsk.mono w _ p.call.src (mono p.call.src) x (goods x mem)
                · change (v.stamp, v.bytes) ∈ if p.call.src = p.call.src then _ else _
                  rw [if_pos rfl]
                  exact (.head _) }
      · exact inv.becomes is k trivial
    · exact inv
  · exact inv

theorem read_inv (inv : Inv w) (k len : Nat) (meets : w.Meets (.read k len)) : Inv (w.read k len) := by
  unfold World.read
  split
  · rename_i p wire is
    obtain ⟨_, goods⟩ : Ready w p ∧ ∀ x ∈ wire, GoodAsk w p.call.src x := inv.phase is
    split
    · rename_i offset stamp was there
      have seen : (stamp, was) ∈ w.seen p.call.src := goods _ (List.mem_of_getElem? there)
      split
      · rename_i v far
        have same := meets p wire offset stamp was v is there far
        dsimp only
        split
        · exact inv.becomes is k trivial
        · refine inv.becomes is k ⟨was, min (min (stamp.total - offset) SLICE) len, seen, ?_⟩
          have inner : min (min (stamp.total - offset) SLICE) len ≤ stamp.total - offset := by omega
          generalize min (min (stamp.total - offset) SLICE) len = n at inner ⊢
          calc
            (v.bytes.drop offset).take n = ((v.bytes.drop offset).take (stamp.total - offset)).take n := by
              rw [List.take_take, Nat.min_eq_left inner]
            _ = ((was.drop offset).take (stamp.total - offset)).take n := by rw [same]
            _ = (was.drop offset).take n := by rw [List.take_take, Nat.min_eq_left inner]
      · exact inv.becomes is k trivial
    · exact inv
  · exact inv

theorem edit_inv (inv : Inv w) (src : Source) (v : Option Version) : Inv (w.edit src v) := by
  have grows (s : Source) (bytes : Bytes) (mem : bytes ∈ w.past s) : bytes ∈ (w.edit src v).past s := by
    unfold World.edit
    dsimp only
    split
    · exact List.mem_append_right _ mem
    · exact mem
  exact
    { seenOne := inv.seenOne
      seenPast := fun s stamp all mem => ⟨grows s all (inv.seenPast s stamp all mem).1, (inv.seenPast s stamp all mem).2⟩
      farPast := by
        intro s v' far
        unfold World.edit at far ⊢
        dsimp only at far ⊢
        split
        · rename_i same
          rw [if_pos same] at far
          rw [far]
          exact List.mem_append_left _ (List.mem_singleton.mpr rfl)
        · rename_i ne
          rw [if_neg ne] at far
          exact inv.farPast s v' far
      noteSeen := inv.noteSeen
      noteOf := inv.noteOf
      own := by
        have own := inv.own
        have same : (w.edit src v).phase = w.phase := rfl
        unfold Own at own ⊢
        rw [same]
        cases is : w.phase with
        | moving p =>
            rw [is] at own
            obtain ⟨bytes, part, past⟩ := own
            exact ⟨bytes, part, grows _ _ past⟩
        | unnoting p =>
            rw [is] at own
            obtain ⟨bytes, dest, past⟩ := own
            exact ⟨bytes, dest, grows _ _ past⟩
        | returned c ok =>
            rw [is] at own
            cases ok with
            | true =>
                obtain ⟨bytes, dest, past⟩ := own
                exact ⟨bytes, dest, grows _ _ past⟩
            | false => exact own
        | _ =>
            rw [is] at own
            exact own }

/-! ### Runs -/

theorem Inv.step {w : World} {e : Event} (may : w.Steady e ∧ w.Meets e) (inv : Inv w) : Inv (w.step e) := by
  obtain ⟨steady, meets⟩ := may
  cases e with
  | call c =>
      unfold World.step
      dsimp only
      split
      · exact inv.turns trivial
      · exact inv.turns trivial
      · exact inv
  | line fault =>
      unfold World.step
      dsimp only
      split
      · rename_i c is
        split
        · rename_i failed
          exact inv.turns fun resume => meets c is failed resume
        · exact inv.turns trivial
      · exact inv
  | open_ fault => exact open_inv inv fault meets
  | ask stopped => exact ask_inv inv stopped
  | look k => exact look_inv inv k steady
  | read k len => exact read_inv inv k len meets
  | refuse k => exact answer_inv inv k .refused nofun
  | answerOther k => exact answer_inv inv k .other nofun
  | lose k => exact answer_inv inv k .lost nofun
  | gather => exact gather_inv inv
  | handle => exact handle_inv inv
  | note fault => exact note_inv inv fault meets
  | write fault => exact write_inv inv fault
  | restart fault => exact restart_inv inv fault meets
  | rename fault => exact rename_inv inv fault meets
  | unnote fault => exact unnote_inv inv fault
  | removePart fault => exact removePart_inv inv fault meets
  | removeNote fault => exact removeNote_inv inv fault meets
  | kill k => exact kill_inv inv k
  | edit src v => exact edit_inv inv src v

theorem start_inv (far : Source → Option Version) (part dest : Option Bytes) (c : Call) : Inv (.start far part dest c) where
  seenOne := fun _ _ _ _ mem => nomatch mem
  seenPast := fun _ _ _ mem => nomatch mem
  farPast := by
    intro src v is
    change v.bytes ∈ ((far src).map Version.bytes).toList
    have is : far src = some v := is
    rw [is]
    exact List.mem_singleton.mpr rfl
  noteSeen := fun _ is => nomatch is
  noteOf := fun _ _ is => nomatch is
  own := trivial

/-! ### Full answers -/

/-- The stamp is that of the file as it is. -/
def Current (w : World) (src : Source) (stamp : Stamp) : Prop := ∃ v, w.far src = some v ∧ stamp = v.stamp

def CurrentAnswer (w : World) (src : Source) : Nat × Answer → Prop
  | (_, .slice stamp _) => Current w src stamp
  | _ => True

def CurrentAsk (w : World) (src : Source) : Nat × Ask → Prop
  | (offset, .answered a) => CurrentAnswer w src (offset, a)
  | (_, .looked stamp _) => Current w src stamp
  | _ => True

/-- All that is on its way was seen of the file as it is. -/
def Fresh (w : World) : Prop :=
  match w.phase with
  | .asked p wire => (wire.map Prod.fst).head? = some p.offset ∧ ∀ x ∈ wire, CurrentAsk w p.call.src x
  | .handling p all => ∀ x ∈ all, CurrentAnswer w p.call.src x
  | .noting p stamp _ rest =>
      p.contract = some stamp ∧ Current w p.call.src stamp ∧ ∀ x ∈ rest, CurrentAnswer w p.call.src x
  | .writing p stamp bytes rest =>
      p.contract = some stamp ∧ Current w p.call.src stamp ∧ (∀ x ∈ rest, CurrentAnswer w p.call.src x) ∧
        (bytes ≠ [] ∨ stamp.total = 0)
  | _ => True

def World.size (w : World) (src : Source) : Nat :=
  match w.far src with
  | some v => v.bytes.length
  | none => 0

/-- The bytes to come, or one more than all before the stamp is known, and one more still while it is stale. -/
def World.left (w : World) (p : Pull) : Nat :=
  match p.contract with
  | none => w.size p.call.src + 1
  | some stamp =>
      if (w.far p.call.src).map Version.stamp = some stamp then stamp.total - p.offset else w.size p.call.src + 2

def Ask.cost : Ask → Nat
  | .waiting => 2
  | .looked .. => 1
  | .answered _ => 0

def wireCost (wire : List (Nat × Ask)) : Nat := (wire.map fun x => x.2.cost).sum

/-- What full answers bring down with every step. -/
def rank (w : World) : Nat :=
  match w.phase with
  | .idle | .returned .. => 0
  | .begun c => 100 * (w.size c.src + 2) + 102
  | .opening c => 100 * (w.size c.src + 2) + 101
  | .looping p => 100 * w.left p + 60
  | .asked p wire => 100 * w.left p + 30 + wireCost wire
  | .handling p all => 100 * w.left p + if (all.map Prod.fst).head? = some p.offset then 20 else 70
  | .noting p .. => 100 * w.left p + 15
  | .writing p .. => 100 * w.left p + 12
  | .restarting p => 100 * (w.size p.call.src + 1) + 80
  | .moving _ => 4
  | .unnoting _ => 3
  | .failing _ => 2
  | .failing2 _ => 1

theorem Current.left (contract : p.contract = some stamp) (current : Current w p.call.src stamp) :
    w.left p = stamp.total - p.offset ∧ stamp.total = w.size p.call.src := by
  obtain ⟨v, far, rfl⟩ := current
  unfold World.left World.size
  rw [contract]
  dsimp only
  rw [far]
  exact ⟨if_pos rfl, rfl⟩

theorem left_le (w : World) (p : Pull) : w.left p ≤ w.size p.call.src + 2 := by
  unfold World.left
  split
  · omega
  · rename_i stamp _
    split
    · rename_i current
      obtain ⟨v, far, rfl⟩ := Option.map_eq_some_iff.mp current
      unfold World.size
      rw [far]
      change v.bytes.length - p.offset ≤ v.bytes.length + 2
      omega
    · omega

theorem wireCost_set {ask' : Ask} (there : wire[k]? = some (offset, ask)) (less : ask'.cost < ask.cost) :
    wireCost (wire.set k (offset, ask')) < wireCost wire := by
  induction wire generalizing k with
  | nil => cases there
  | cons x wire ih =>
      cases k with
      | zero =>
          cases there
          simp [wireCost, less]
      | succ k =>
          have := ih there
          simpa [wireCost] using this

theorem wireCost_le (wire : List (Nat × Ask)) : wireCost wire ≤ 2 * wire.length := by
  induction wire with
  | nil => exact Nat.le_refl _
  | cons x wire ih =>
      obtain ⟨offset, ask⟩ := x
      have : ask.cost ≤ 2 := by cases ask <;> simp [Ask.cost]
      simp only [wireCost, List.map_cons, List.sum_cons, List.length_cons] at ih ⊢
      omega

theorem offsets_length (p : Pull) : p.offsets.length ≤ PULL_AHEAD := by
  unfold Pull.offsets
  split
  · exact (by decide : 1 ≤ PULL_AHEAD)
  · exact Nat.le_trans (List.takeWhile_sublist _).length_le (by simp)

theorem offsets_head (some_ : p.offsets ≠ []) : p.offsets.head? = some p.offset := by
  unfold Pull.offsets at some_ ⊢
  split
  · rfl
  · rename_i stamp is
    rw [is] at some_
    have range : List.range PULL_AHEAD = 0 :: [1, 2, 3, 4, 5, 6, 7] := rfl
    dsimp only at some_
    rw [range, List.map_cons, List.takeWhile_cons] at some_ ⊢
    split at some_
    · rename_i within
      rw [if_pos within]
      simp
    · exact absurd rfl some_

theorem answers_heads (is : answers wire = some all) : all.map Prod.fst = wire.map Prod.fst := by
  induction wire generalizing all with
  | nil =>
      cases is
      rfl
  | cons x wire ih =>
      obtain ⟨offset, ask⟩ := x
      cases ask with
      | answered a =>
          obtain ⟨more, rest, rfl⟩ := Option.map_eq_some_iff.mp is
          rw [List.map_cons, List.map_cons, ih rest]
      | waiting | looked => cases is

theorem answers_current {src : Source} (is : answers wire = some all) (current : ∀ x ∈ wire, CurrentAsk w src x) :
    ∀ x ∈ all, CurrentAnswer w src x :=
  fun x mem => current _ (answers_mem is x mem)

/-- One step with full answers. -/
def Lower (w w' : World) : Prop := rank w' < rank w ∧ Fresh w'

theorem Lower.become {ask' : Ask} (is : w.phase = .asked p wire) (fresh : Fresh w)
    (there : wire[k]? = some (offset, ask)) (less : ask'.cost < ask.cost) (far : w'.far = w.far)
    (is' : w'.phase = .asked p (wire.set k (offset, ask'))) (current : CurrentAsk w p.call.src (offset, ask')) :
    Lower w w' := by
  unfold Fresh at fresh
  rw [is] at fresh
  obtain ⟨head, all⟩ := fresh
  have left : w'.left p = w.left p := by unfold World.left World.size; rw [far]
  have same (x : Nat × Ask) (c : CurrentAsk w p.call.src x) : CurrentAsk w' p.call.src x := by
    obtain ⟨o, a⟩ := x
    cases a with
    | waiting => trivial
    | looked stamp was =>
        obtain ⟨v, there, eq⟩ := c
        exact ⟨v, far ▸ there, eq⟩
    | answered a =>
        cases a with
        | slice stamp bytes =>
            obtain ⟨v, there, eq⟩ := c
            exact ⟨v, far ▸ there, eq⟩
        | _ => trivial
  constructor
  · have := wireCost_set there less
    unfold rank
    rw [is, is']
    dsimp only
    omega
  · unfold Fresh
    rw [is']
    refine ⟨?_, fun x mem => ?_⟩
    · have fsts : (wire.set k (offset, ask')).map Prod.fst = wire.map Prod.fst := by
        obtain ⟨within, at_⟩ := List.getElem?_eq_some_iff.mp there
        rw [List.map_set]
        have same : offset = (wire.map Prod.fst).get ⟨k, by simpa using within⟩ := by simp [at_]
        rw [same]
        exact List.set_getElem_self _
      rw [fsts]
      exact head
    · obtain mem | rfl := List.mem_or_eq_of_mem_set mem
      · exact same x (all x mem)
      · exact same _ current

theorem look_lower (full : w.Full (.look k)) (fresh : Fresh w) : Lower w (w.look k) := by
  obtain ⟨p, wire, offset, is, there⟩ := full
  unfold World.look
  rw [is]
  dsimp only
  rw [there]
  dsimp only
  split
  · rename_i v far
    split
    · exact Lower.become is fresh there (by simp [Ask.cost]) rfl rfl trivial
    · exact Lower.become is fresh there (by simp [Ask.cost]) rfl rfl ⟨v, far, rfl⟩
  · exact Lower.become is fresh there (by simp [Ask.cost]) rfl rfl trivial

theorem read_lower {len : Nat} (full : w.Full (.read k len)) (fresh : Fresh w) : Lower w (w.read k len) := by
  obtain ⟨_, p, wire, offset, stamp, was, is, there⟩ := full
  have current : Current w p.call.src stamp := by
    unfold Fresh at fresh
    rw [is] at fresh
    exact fresh.2 _ (List.mem_of_getElem? there)
  unfold World.read
  rw [is]
  dsimp only
  rw [there]
  dsimp only
  split
  · split
    · exact Lower.become is fresh there (by simp [Ask.cost]) rfl rfl trivial
    · exact Lower.become is fresh there (by simp [Ask.cost]) rfl rfl current
  · exact Lower.become is fresh there (by simp [Ask.cost]) rfl rfl trivial

theorem takes_lower {bytes : Bytes} {rest : List (Nat × Answer)} (far : w'.far = w.far)
    (contract : p.contract = some stamp) (current : Current w p.call.src stamp)
    (rests : ∀ x ∈ rest, CurrentAnswer w p.call.src x) (is' : w'.phase = p.takes stamp bytes rest)
    (above : 100 * w.left p + 12 < rank w) : Lower w w' := by
  have left : w'.left p = w.left p := by unfold World.left World.size; rw [far]
  unfold Pull.takes at is'
  split at is'
  · refine ⟨?_, ?_⟩
    · unfold rank at above ⊢
      rw [is']
      dsimp only
      omega
    · unfold Fresh
      rw [is']
      trivial
  · rename_i some_
    refine ⟨?_, ?_⟩
    · have now : rank w' = 100 * w.left p + 12 := by
        unfold rank
        rw [is']
        dsimp only
        rw [left]
      omega
    · unfold Fresh
      rw [is']
      refine ⟨contract, ?_, fun x mem => ?_, ?_⟩
      · obtain ⟨v, there, eq⟩ := current
        exact ⟨v, far ▸ there, eq⟩
      · have c := rests x mem
        obtain ⟨o, a⟩ := x
        cases a with
        | slice stamp bytes =>
            obtain ⟨v, there, eq⟩ := c
            exact ⟨v, far ▸ there, eq⟩
        | _ => trivial
      · by_cases none_ : bytes = []
        · right
          have : ¬ 0 < stamp.total := by simpa [none_] using some_
          omega
        · exact .inl none_

theorem ask_lower (full : w.Full (.ask false)) : Lower w (w.ask false) := by
  obtain ⟨_, p, is⟩ := full
  have before : rank w = 100 * w.left p + 60 := by unfold rank; rw [is]
  unfold World.ask
  rw [is]
  dsimp only
  rw [if_neg (by decide : ¬ false = true)]
  split
  · refine ⟨?_, trivial⟩
    change 4 < rank w
    omega
  · rename_i some_
    have cost := wireCost_le (p.offsets.map fun offset => (offset, Ask.waiting))
    have length := offsets_length p
    rw [List.length_map] at cost
    have : PULL_AHEAD = 8 := rfl
    refine ⟨?_, ?_, ?_⟩
    · change 100 * w.left p + 30 + wireCost _ < rank w
      omega
    · rw [List.map_map]
      change (p.offsets.map id).head? = some p.offset
      rw [List.map_id]
      exact offsets_head some_
    · intro x mem
      obtain ⟨offset, _, rfl⟩ := List.mem_map.mp mem
      trivial

theorem gather_lower (full : w.Full .gather) (fresh : Fresh w) : Lower w w.gather := by
  obtain ⟨p, wire, all, is, gathered⟩ := full
  have before : rank w = 100 * w.left p + 30 + wireCost wire := by unfold rank; rw [is]
  unfold Fresh at fresh
  rw [is] at fresh
  unfold World.gather
  rw [is]
  dsimp only
  rw [gathered]
  refine ⟨?_, answers_current gathered fresh.2⟩
  have head : (all.map Prod.fst).head? = some p.offset := answers_heads gathered ▸ fresh.1
  change (100 * w.left p + if (all.map Prod.fst).head? = some p.offset then 20 else 70) < rank w
  rw [if_pos head]
  omega

theorem handle_lower (full : w.Full .handle) (fresh : Fresh w) : Lower w w.handle := by
  obtain ⟨p, all, is⟩ := full
  unfold Fresh at fresh
  rw [is] at fresh
  unfold World.handle
  rw [is]
  cases all with
  | nil =>
      refine ⟨?_, trivial⟩
      have before : rank w = 100 * w.left p + 70 := by unfold rank; rw [is]; rfl
      change 100 * w.left p + 60 < rank w
      omega
  | cons x rest =>
      obtain ⟨offset, a⟩ := x
      have rests : ∀ x ∈ rest, CurrentAnswer w p.call.src x := fun x mem => fresh x (.tail _ mem)
      dsimp only
      split
      · rename_i here
        have before : rank w = 100 * w.left p + 20 := by
          unfold rank
          rw [is]
          dsimp only
          rw [List.map_cons, List.head?_cons, if_pos (congrArg some here)]
        have fails (w' : World) (is' : w'.phase = .failing p.call) : Lower w w' := by
          refine ⟨?_, ?_⟩
          · have now : rank w' = 2 := by unfold rank; rw [is']
            omega
          · unfold Fresh
            rw [is']
            trivial
        split
        · rename_i stamp bytes
          have current : Current w p.call.src stamp := fresh _ (.head _)
          split
          · rename_i contract
            split
            · exact fails _ rfl
            · refine ⟨?_, rfl, current, rests⟩
              have left : w.left { p with contract := some stamp } = stamp.total - p.offset ∧ stamp.total = w.size p.call.src :=
                Current.left (p := { p with contract := some stamp }) rfl current
              have first : w.left p = w.size p.call.src + 1 := by unfold World.left; rw [contract]
              change 100 * w.left { p with contract := some stamp } + 15 < rank w
              omega
          · rename_i contract is'
            split
            · rename_i same
              exact takes_lower rfl (same ▸ is') current rests rfl (by omega)
            · rename_i other
              split
              · have stale : w.left p = w.size p.call.src + 2 := by
                  obtain ⟨v, far, rfl⟩ := current
                  unfold World.left
                  rw [is']
                  dsimp only
                  rw [far, Option.map_some, if_neg fun same => other (Option.some.inj same).symm]
                refine ⟨?_, trivial⟩
                change 100 * (w.size p.call.src + 1) + 80 < rank w
                omega
              · exact fails _ rfl
        · exact fails _ rfl
        · exact fails _ rfl
        · split
          · refine ⟨?_, trivial⟩
            change 0 < rank w
            omega
          · exact fails _ rfl
      · rename_i other
        have before : rank w = 100 * w.left p + 70 := by
          unfold rank
          rw [is]
          dsimp only
          rw [List.map_cons, List.head?_cons, if_neg fun same => other (Option.some.inj same)]
        refine ⟨?_, trivial⟩
        change 100 * w.left p + 60 < rank w
        omega

theorem note_lower {fault : Option Bool} (full : w.Full (.note fault)) (fresh : Fresh w) :
    Lower w (w.writeNote fault) := by
  obtain ⟨p, stamp, bytes, rest, is⟩ := full
  unfold Fresh at fresh
  rw [is] at fresh
  obtain ⟨contract, current, rests⟩ := fresh
  have before : rank w = 100 * w.left p + 15 := by unfold rank; rw [is]
  unfold World.writeNote
  rw [is]
  exact takes_lower rfl contract current rests rfl (by omega)

theorem write_lower (full : w.Full (.write none)) (fresh : Fresh w) : Lower w (w.write none) := by
  obtain ⟨_, p, stamp, bytes, rest, is⟩ := full
  unfold Fresh at fresh
  rw [is] at fresh
  obtain ⟨contract, current, rests, some_⟩ := fresh
  have before : rank w = 100 * w.left p + 12 := by unfold rank; rw [is]
  unfold World.write
  rw [is]
  dsimp only
  split
  · refine ⟨?_, trivial⟩
    change 4 < rank w
    omega
  · rename_i more
    refine ⟨?_, rests⟩
    have now := Current.left (p := { p with offset := p.offset + bytes.length }) contract current
    have then_ := Current.left contract current
    have pos : 0 < bytes.length := by
      obtain some_ | empty := some_
      · exact List.length_pos_iff.mpr some_
      · omega
    change (100 * w.left { p with offset := p.offset + bytes.length } +
      if (rest.map Prod.fst).head? = some (p.offset + bytes.length) then 20 else 70) < rank w
    have below : (if (rest.map Prod.fst).head? = some (p.offset + bytes.length) then 20 else 70) ≤ 70 := by
      split <;> omega
    have now : w.left { p with offset := p.offset + bytes.length } = stamp.total - (p.offset + bytes.length) := now.1
    omega

/-- Every step with full answers goes down. -/
theorem full_lower {e : Event} (full : w.Full e) (fresh : Fresh w) : Lower w (w.step e) := by
  cases e with
  | line fault =>
      obtain ⟨rfl, c, is⟩ := full
      unfold World.step
      dsimp only
      rw [is]
      refine ⟨?_, trivial⟩
      have before : rank w = 100 * (w.size c.src + 2) + 102 := by unfold rank; rw [is]
      change 100 * (w.size c.src + 2) + 101 < rank w
      omega
  | open_ fault =>
      obtain ⟨rfl, c, is⟩ := full
      have before : rank w = 100 * (w.size c.src + 2) + 101 := by unfold rank; rw [is]
      change Lower w (w.open_ false)
      unfold World.open_
      rw [is]
      dsimp only
      rw [if_neg (by decide : ¬ false = true)]
      split
      · rename_i stamp had _
        refine ⟨?_, trivial⟩
        have le := left_le w ⟨c, some stamp, had, had⟩
        change 100 * w.left ⟨c, some stamp, had, had⟩ + 60 < rank w
        change w.left ⟨c, some stamp, had, had⟩ ≤ w.size c.src + 2 at le
        omega
      · refine ⟨?_, trivial⟩
        change 100 * (w.size c.src + 1) + 60 < rank w
        omega
  | ask stopped =>
      obtain ⟨rfl, _⟩ := id full
      exact ask_lower full
  | look k => exact look_lower full fresh
  | read k len => exact read_lower full fresh
  | gather => exact gather_lower full fresh
  | handle => exact handle_lower full fresh
  | note fault => exact note_lower full fresh
  | write fault =>
      obtain ⟨rfl, _⟩ := id full
      exact write_lower full fresh
  | restart fault =>
      obtain ⟨p, is⟩ := full
      have before : rank w = 100 * (w.size p.call.src + 1) + 80 := by unfold rank; rw [is]
      change Lower w (w.restart fault)
      unfold World.restart
      rw [is]
      refine ⟨?_, trivial⟩
      change 100 * (w.size p.call.src + 1) + 60 < rank w
      omega
  | rename fault =>
      obtain ⟨p, is⟩ := full
      have before : rank w = 4 := by unfold rank; rw [is]
      change Lower w (w.rename fault)
      unfold World.rename
      rw [is]
      dsimp only
      split
      · exact ⟨by rw [before]; exact (by decide : 0 < 4), trivial⟩
      · exact ⟨by rw [before]; exact (by decide : 3 < 4), trivial⟩
  | unnote fault =>
      obtain ⟨p, is⟩ := full
      have before : rank w = 3 := by unfold rank; rw [is]
      change Lower w (w.unnote fault)
      unfold World.unnote
      rw [is]
      exact ⟨by rw [before]; exact (by decide : 0 < 3), trivial⟩
  | removePart fault =>
      obtain ⟨c, is⟩ := full
      have before : rank w = 2 := by unfold rank; rw [is]
      change Lower w (w.removePart fault)
      unfold World.removePart
      rw [is]
      exact ⟨by rw [before]; exact (by decide : 1 < 2), trivial⟩
  | removeNote fault =>
      obtain ⟨c, is⟩ := full
      have before : rank w = 1 := by unfold rank; rw [is]
      change Lower w (w.removeNote fault)
      unfold World.removeNote
      rw [is]
      exact ⟨by rw [before]; exact (by decide : 0 < 1), trivial⟩
  | call | refuse | answerOther | lose | kill | edit => exact full.elim

theorem full_ends {es : List Event} (fresh : Fresh w) (fits : Fits World.step World.Full w es) :
    es.length ≤ rank w := by
  induction es generalizing w with
  | nil => exact Nat.zero_le _
  | cons e es ih =>
      obtain ⟨lower, fresh'⟩ := full_lower fits.1 fresh
      have rest := ih fresh' fits.2
      simp only [List.length_cons]
      omega

theorem answers_or_open (wire : List (Nat × Ask)) :
    (∃ all, answers wire = some all) ∨ ∃ (k offset : Nat), wire[k]? = some (offset, Ask.waiting) ∨
      ∃ stamp was, wire[k]? = some (offset, Ask.looked stamp was) := by
  induction wire with
  | nil => exact .inl ⟨[], rfl⟩
  | cons x wire ih =>
      obtain ⟨offset, ask⟩ := x
      cases ask with
      | waiting => exact .inr ⟨0, offset, .inl rfl⟩
      | looked stamp was => exact .inr ⟨0, offset, .inr ⟨stamp, was, rfl⟩⟩
      | answered a =>
          obtain ⟨all, is⟩ | ⟨k, offset', open_⟩ := ih
          · refine .inl ⟨(offset, a) :: all, ?_⟩
            unfold answers
            rw [is]
            rfl
          · exact .inr ⟨k + 1, offset', open_⟩

theorem full_goes (under : w.phase.isOver = false) : ∃ e, w.Full e := by
  cases is : w.phase with
  | idle | returned => rw [is] at under; cases under
  | begun c => exact ⟨.line false, rfl, c, is⟩
  | opening c => exact ⟨.open_ false, rfl, c, is⟩
  | looping p => exact ⟨.ask false, rfl, p, is⟩
  | asked p wire =>
      obtain ⟨all, gathered⟩ | ⟨k, offset, waiting | ⟨stamp, was, looked⟩⟩ := answers_or_open wire
      · exact ⟨.gather, p, wire, all, is, gathered⟩
      · exact ⟨.look k, p, wire, offset, is, waiting⟩
      · exact ⟨.read k SLICE, Nat.le_refl _, p, wire, offset, stamp, was, is, looked⟩
  | handling p all => exact ⟨.handle, p, all, is⟩
  | noting p stamp bytes rest => exact ⟨.note none, p, stamp, bytes, rest, is⟩
  | writing p stamp bytes rest => exact ⟨.write none, rfl, p, stamp, bytes, rest, is⟩
  | restarting p => exact ⟨.restart false, p, is⟩
  | moving p => exact ⟨.rename false, p, is⟩
  | unnoting p => exact ⟨.unnote false, p, is⟩
  | failing c => exact ⟨.removePart false, c, is⟩
  | failing2 c => exact ⟨.removeNote false, c, is⟩

theorem Inv.pulled (inv : Inv w) : Pulled w where
  lands := by
    intro c is
    have own := inv.own
    unfold Own at own
    rw [is] at own
    exact own
  others := by
    intro c n is note other
    have held : w.held c.src = none := by
      unfold World.held
      rw [note]
      split
      · rename_i n' held note' _
        cases note'
        simp [other]
      · rfl
    unfold World.open_
    rw [is]
    dsimp only
    rw [if_neg (by decide : ¬ false = true), held]
    exact ⟨rfl, rfl⟩
  leaves := by
    intro c is
    have own := inv.own
    unfold Own at own
    rw [is] at own
    exact own
  goes := full_goes
  ends := by
    intro c is
    refine ⟨rank w, fun es => full_ends ?_⟩
    unfold Fresh
    rw [is]
    trivial

/-- In every run over far files whose size and time are of one content, and that meets the condition. -/
theorem pulls_land_one_version (far : Source → Option Version) (part dest : Option Bytes) (c : Call) {w : World}
    (run : Runs World.step (fun w e => w.Steady e ∧ w.Meets e) (.start far part dest c) w) : Pulled w :=
  (run.invariant Inv.step (start_inv far part dest c)).pulled

def oneSource : Source := ⟨"far", none, "/a"⟩

/-- A far file with two bytes, and a pull of it into an empty landing. -/
def onePull : World :=
  .start (fun src => if src = oneSource then some ⟨[1, 2], 5⟩ else none) none none ⟨oneSource, none, false⟩

/-- The file as it is lands. -/
theorem pulls_land_one_version_whole :
    Pulled
      ([.line false, .open_ false, .ask false, .look 0, .read 0 2, .gather, .handle, .note none, .write none, .rename false,
        Event.unnote false].foldl World.step onePull) := by
  refine pulls_land_one_version _ none none ⟨oneSource, none, false⟩ (Fits.runs ?_)
  refine ⟨⟨trivial, ?_⟩, ⟨trivial, ?_⟩, ⟨trivial, trivial⟩, ⟨?_, trivial⟩, ⟨trivial, ?_⟩, ⟨trivial, trivial⟩,
    ⟨trivial, trivial⟩, ⟨trivial, nofun⟩, ⟨trivial, trivial⟩, ⟨trivial, fun _ _ _ => rfl⟩, ⟨trivial, trivial⟩, trivial⟩
  · nofun
  · nofun
  · intro p wire offset v bytes is there far seen
    cases is
    cases seen
  · intro p wire offset stamp was v is there far
    cases is
    cases there
    cases far
    rfl

/-- The file changes between the look at it and the read of its only slice: what lands is a part of the new file, cut to
the length of the old one. -/
theorem pulls_land_torn :
    ∃ w, Runs World.step World.Steady onePull w ∧ ¬ Pulled w ∧ w.phase = .returned ⟨oneSource, none, false⟩ true ∧
      w.dest = some [3, 4] ∧ w.past oneSource = [[3, 4, 5], [1, 2]] := by
  have first : World.Steady ([.line false, .open_ false, Event.ask false].foldl World.step onePull) (.look 0) := by
    intro p wire offset v bytes is _ _ seen
    cases is
    cases seen
  have run := @Fits.runs _ _ World.step World.Steady onePull
    [.line false, .open_ false, .ask false, .look 0, .edit oneSource (some ⟨[3, 4, 5], 6⟩), .read 0 2, .gather, .handle,
      .note none, .write none, .rename false, .unnote false]
    ⟨trivial, trivial, trivial, first, trivial, trivial, trivial, trivial, trivial, trivial, trivial, trivial, trivial⟩
  refine ⟨_, run, fun pulled => ?_, rfl, rfl, rfl⟩
  obtain ⟨bytes, dest, past⟩ := pulled.lands _ rfl
  cases dest
  revert past
  decide

end Khor.PullInto
