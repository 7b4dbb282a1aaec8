/-
Module: Khor.Net.RoadOrder
Purpose: The choice of the road a connection takes: direct paths before all others, margins against trading places on
  noise, and the second direct path kept open beside the one in use. Choosing again and again among the same candidates
  moves once at most.
Trusted boundary: durations as whole nanoseconds without the bound of 2^64 seconds; what a path measures is given; the
  connection's own paths as a type with decidable equality
Main exports: Tier, directMargin, spare_qualifies, road_settles, select_sound
-/
import Mathlib

namespace Khor.RoadOrder

/-- A `Duration` of so many milliseconds, in nanoseconds. -/
def millis (ms : Nat) : Nat := ms * 1000000

/-- A path's place in the owner's order. -/
inductive Tier where
  | direct
  | carried
  | relay
deriving DecidableEq

def DIRECT_MARGIN : Nat := millis 5

/-- How long a move between direct paths holds. -/
def DIRECT_DWELL : Nat := millis 60000

/-- The least by which a direct path must beat the direct one in use, whose round trip is `rtt`. -/
def directMargin (rtt : Nat) (settling : Bool) : Nat :=
  if settling then max (DIRECT_MARGIN * 2) (rtt / 2) else max DIRECT_MARGIN (rtt / 4)

/-- The same between a carried road and the relay. -/
def SWITCH_MARGIN : Nat := millis 10

/-- Whether a second direct path is kept open beside the one in use. -/
inductive Spare where
  | off
  | near
  | on

def SPARE_NEAR : Nat := millis 10

/-- Whether a path of round trip `other` may be the spare of one of round trip `rtt`. -/
def Spare.ok (policy : Spare) (rtt other : Nat) : Prop :=
  match policy with
  | .off => False
  | .near => other ≤ rtt + SPARE_NEAR
  | .on => True

instance (policy : Spare) (rtt other : Nat) : Decidable (policy.ok rtt other) := by
  unfold Spare.ok
  split <;> infer_instance

/-- Whether the direct path in use rides out a stall rather than leave for the fastest other road. -/
def ridesOut (stall : Nat) (fastest : Option Nat) : Bool :=
  fastest.any (stall < ·)

/-- What may be a spare among the other paths: direct, and near enough. -/
def Qualifies (policy : Spare) (rtt : Nat) (other : Bool × Nat) : Prop :=
  other.1 = true ∧ policy.ok rtt other.2

instance (policy : Spare) (rtt : Nat) (other : Bool × Nat) : Decidable (Qualifies policy rtt other) :=
  inferInstanceAs (Decidable (_ ∧ _))

/-- The fastest path that qualifies, the first of them. -/
def nearest (policy : Spare) (rtt : Nat) (others : List (Bool × Nat)) : Option (Fin others.length) :=
  ((List.finRange others.length).filter fun i => Qualifies policy rtt others[i]).argmin fun i => others[i].2

/-- Which direct path to keep as the spare. `held`, the one kept now, is one of `others`. -/
def spare (policy : Spare) (rtt : Nat) (others : List (Bool × Nat)) (held : Option (Fin others.length)) :
    Option (Fin others.length) :=
  match nearest policy rtt others with
  | none => none
  | some fast =>
      match held with
      | some h =>
          if Qualifies policy rtt others[h] ∧ others[h].2 ≤ others[fast].2 + DIRECT_MARGIN then some h else some fast
      | none => some fast

/-- What a candidate is ranked by: whether it is not direct, then its round trip. -/
def rank (road : Tier × Nat) : Bool ×ₗ Nat :=
  toLex (decide (road.1 ≠ .direct), road.2)

/-- The candidate of the lowest rank, the first of them. -/
def best (candidates : List (Tier × Nat)) : Option (Fin candidates.length) :=
  (List.finRange candidates.length).argmin fun i => rank candidates[i]

/-- Whether the connection leaves the path in use for `road`. -/
def leaves (current road : Tier × Nat) (settling : Bool) : Prop :=
  match current.1, road.1 with
  -- up to direct at any time; within direct, only past the margin
  | .direct, .direct => road.2 + directMargin current.2 settling ≤ current.2
  | _, .direct => True
  -- off direct only when it broke, and then nothing is in use
  | .direct, _ => False
  -- a carried road and the relay: the faster, past the margin
  | _, _ => road.2 + SWITCH_MARGIN ≤ current.2

instance (current road : Tier × Nat) (settling : Bool) : Decidable (leaves current road settling) := by
  unfold leaves
  split <;> infer_instance

/-- Which candidate to move to, or `none` to stay. `current` is `none` when nothing is selected, or the selected path
  broke. -/
def chooseSettling (current : Option (Tier × Nat)) (candidates : List (Tier × Nat)) (settling : Bool) :
    Option (Fin candidates.length) :=
  match best candidates with
  | none => none
  | some i =>
      match current with
      | none => some i
      | some road => if leaves road candidates[i] settling then some i else none

theorem directMargin_pos (rtt : Nat) (settling : Bool) : 0 < directMargin rtt settling := by
  unfold directMargin DIRECT_MARGIN millis
  split <;> omega

theorem best_least {candidates : List (Tier × Nat)} {i : Fin candidates.length} (found : best candidates = some i)
    (j : Fin candidates.length) : rank candidates[i] ≤ rank candidates[j] :=
  List.le_of_mem_argmin (f := fun i : Fin candidates.length => rank candidates[i]) (List.mem_finRange j) found

variable {settling : Bool} {current : Tier × Nat}

/-- A move goes to the best candidate, and the path in use is one to leave for it. -/
theorem chooseSettling_eq_some {current : Option (Tier × Nat)} {candidates : List (Tier × Nat)}
    {i : Fin candidates.length} : chooseSettling current candidates settling = some i ↔
      best candidates = some i ∧ ∀ road ∈ current, leaves road candidates[i] settling := by
  unfold chooseSettling
  cases found : best candidates with
  | none => simp
  | some j =>
      cases current with
      | none => simp
      | some road =>
          by_cases left : leaves road candidates[j] settling
          · simp only [left, if_true, Option.some.injEq, Option.mem_def]
            refine ⟨?_, fun both => both.1⟩
            rintro rfl
            exact ⟨rfl, fun _ same => same ▸ left⟩
          · simp only [left, if_false, Option.some.injEq, Option.mem_def, reduceCtorEq, false_iff, not_and]
            rintro rfl all
            exact left (all road rfl)

example : chooseSettling (some (.direct, millis 8)) [(.direct, millis 8), (.direct, millis 1)] true = none ∧
    (chooseSettling (some (.direct, millis 8)) [(.direct, millis 8), (.direct, millis 1)] false).isSome := by
  decide

/-- A connection leaves a direct path for another direct one alone. -/
theorem leaves_direct {road : Tier × Nat} (left : leaves current road settling) (direct : current.1 = .direct) :
    road.1 = .direct ∧ road.2 + directMargin current.2 settling ≤ current.2 := by
  obtain ⟨tier, rtt⟩ := current
  obtain ⟨kind, other⟩ := road
  subst direct
  cases kind with
  | direct => exact ⟨rfl, left⟩
  | carried | relay => exact left.elim

/-- Between two paths neither of which is direct it leaves past the margin. -/
theorem leaves_other {road : Tier × Nat} (left : leaves current road settling) (other : current.1 ≠ .direct)
    (kind : road.1 ≠ .direct) : road.2 + SWITCH_MARGIN ≤ current.2 := by
  obtain ⟨_ | _ | _, _⟩ := current
  · exact absurd rfl other
  all_goals
    obtain ⟨_ | _ | _, _⟩ := road
    · exact absurd rfl kind
    · exact left
    · exact left

theorem rank_lt {road : Tier × Nat} : rank road < rank current ↔
      (road.1 = .direct ∧ current.1 ≠ .direct) ∨
      ((road.1 = .direct ↔ current.1 = .direct) ∧ road.2 < current.2) := by
  unfold rank
  rw [Prod.Lex.toLex_lt_toLex]
  by_cases direct : road.1 = .direct <;> by_cases other : current.1 = .direct <;> simp [direct, other]

/-- Leaving strictly lowers the rank. -/
theorem leaves_lowers {road : Tier × Nat} (left : leaves current road settling) : rank road < rank current := by
  rw [rank_lt]
  by_cases direct : current.1 = .direct
  · obtain ⟨same, past⟩ := leaves_direct left direct
    have margin := directMargin_pos current.2 settling
    exact .inr ⟨by simp [direct, same], by omega⟩
  · by_cases up : road.1 = .direct
    · exact .inl ⟨up, direct⟩
    · have past := leaves_other left direct up
      refine .inr ⟨by simp [direct, up], ?_⟩
      unfold SWITCH_MARGIN millis at past
      omega

/-- The path in use over a run of choices among the same candidates, `settling n` at the `n`th. -/
def inUse (candidates : List (Tier × Nat)) (settling : Nat → Bool) (current : Option (Tier × Nat)) :
    Nat → Option (Tier × Nat)
  | 0 => current
  | n + 1 =>
      match chooseSettling (inUse candidates settling current n) candidates (settling n) with
      | some i => some candidates[i]
      | none => inUse candidates settling current n

/-- What the `n`th choice of the run says. -/
def chosen (candidates : List (Tier × Nat)) (settling : Nat → Bool) (current : Option (Tier × Nat)) (n : Nat) :
    Option (Fin candidates.length) :=
  chooseSettling (inUse candidates settling current n) candidates (settling n)

/-- How many of the first `n` choices move the connection. -/
def moves (candidates : List (Tier × Nat)) (settling : Nat → Bool) (current : Option (Tier × Nat)) (n : Nat) : Nat :=
  (List.range n).countP fun k => (chosen candidates settling current k).isSome

section Run

variable {candidates : List (Tier × Nat)} {settling : Nat → Bool} {current : Option (Tier × Nat)}

/-- On the best candidate nothing is left for another: the margins are positive. -/
theorem chooseSettling_best {i : Fin candidates.length} (found : best candidates = some i) (now : Bool) :
    chooseSettling (some candidates[i]) candidates now = none := by
  cases moved : chooseSettling (some candidates[i]) candidates now with
  | none => rfl
  | some j =>
      obtain ⟨first, left⟩ := chooseSettling_eq_some.mp moved
      have lower := leaves_lowers (left candidates[i] rfl)
      exact absurd (best_least found j) (not_le_of_gt lower)

/-- Once on the best candidate the run stays there. -/
theorem inUse_best {i : Fin candidates.length} (found : best candidates = some i) {k : Nat}
    (there : inUse candidates settling current k = some candidates[i]) (n : Nat) :
    inUse candidates settling current (k + n) = some candidates[i] := by
  induction n with
  | zero => exact there
  | succ n ih =>
      rw [← Nat.add_assoc]
      simp only [inUse]
      rw [ih, chooseSettling_best found]

/-- A choice that moves is the last that does. -/
theorem chosen_after {k : Nat} {i : Fin candidates.length} (moved : chosen candidates settling current k = some i)
    {n : Nat} (later : k < n) : chosen candidates settling current n = none := by
  have found := (chooseSettling_eq_some.mp moved).1
  have there : inUse candidates settling current (k + 1) = some candidates[i] := by
    simp only [inUse]
    rw [show chooseSettling _ candidates (settling k) = some i from moved]
  obtain ⟨d, rfl⟩ := Nat.exists_eq_add_of_le later
  unfold chosen
  rw [show k.succ + d = k + 1 + d by omega, inUse_best found there]
  exact chooseSettling_best found _

theorem moves_le_one (n : Nat) : moves candidates settling current n ≤ 1 := by
  induction n with
  | zero => simp [moves]
  | succ n ih =>
      have next : moves candidates settling current (n + 1) =
          moves candidates settling current n + if (chosen candidates settling current n).isSome then 1 else 0 := by
        simp [moves, List.range_succ, List.countP_append, List.countP_cons]
      rw [next]
      cases now : chosen candidates settling current n with
      | none => simpa using ih
      | some i =>
          -- an earlier move would have been the last
          have none_before : moves candidates settling current n = 0 := by
            rw [moves, List.countP_eq_zero]
            intro k before moved
            obtain ⟨j, first⟩ := Option.isSome_iff_exists.mp moved
            rw [chosen_after first (List.mem_range.mp before)] at now
            cases now
          simp [none_before]

/-- From some choice on the connection stays. -/
theorem chosen_eventually : ∃ start, ∀ n, start ≤ n → chosen candidates settling current n = none := by
  by_cases ever : ∃ k, chosen candidates settling current k ≠ none
  · obtain ⟨k, moved⟩ := ever
    obtain ⟨i, first⟩ := Option.ne_none_iff_exists'.mp moved
    exact ⟨k + 1, fun n later => chosen_after first later⟩
  · refine ⟨0, fun n _ => ?_⟩
    by_contra moved
    exact ever ⟨n, moved⟩

end Run

section Kept

variable {policy : Spare} {rtt : Nat} {others : List (Bool × Nat)}

theorem nearest_qualifies {fast : Fin others.length} (found : nearest policy rtt others = some fast) :
    Qualifies policy rtt others[fast] := by
  have member := List.argmin_mem found
  simpa using (List.mem_filter.mp member).2

theorem nearest_found {i : Fin others.length} (fit : Qualifies policy rtt others[i]) :
    ∃ fast, nearest policy rtt others = some fast := by
  have listed : i ∈ (List.finRange others.length).filter fun i => Qualifies policy rtt others[i] :=
    List.mem_filter.mpr ⟨List.mem_finRange i, by simpa using fit⟩
  rw [← Option.ne_none_iff_exists', nearest, ne_eq, List.argmin_eq_none]
  intro empty
  rw [empty] at listed
  cases listed

theorem spare_qualifies {held : Option (Fin others.length)} {i : Fin others.length}
    (kept : spare policy rtt others held = some i) : Qualifies policy rtt others[i] := by
  unfold spare at kept
  cases found : nearest policy rtt others with
  | none => simp [found] at kept
  | some fast =>
      simp only [found] at kept
      cases held with
      | none =>
          cases kept
          exact nearest_qualifies found
      | some h =>
          simp only at kept
          by_cases stays : Qualifies policy rtt others[h] ∧ others[h].2 ≤ others[fast].2 + DIRECT_MARGIN
          · rw [if_pos stays] at kept
            cases kept
            exact stays.1
          · rw [if_neg stays] at kept
            cases kept
            exact nearest_qualifies found

/-- The spare held stays while it qualifies and no path that does is faster by more than the margin. -/
theorem spare_held {h : Fin others.length} (fit : Qualifies policy rtt others[h])
    (near : ∀ i : Fin others.length, Qualifies policy rtt others[i] → others[h].2 ≤ others[i].2 + DIRECT_MARGIN) :
    spare policy rtt others (some h) = some h := by
  obtain ⟨fast, found⟩ := nearest_found fit
  have close := near fast (nearest_qualifies found)
  simp only [spare, found]
  rw [if_pos ⟨fit, close⟩]

end Kept

/-- A run of choices moves once at most and then stays; a direct path is left for a direct one alone; a move lowers
  the rank, within a kind by its margin; and the spare is a direct path the policy allows, kept while it is near the
  fastest. -/
theorem road_settles :
    (∀ (candidates : List (Tier × Nat)) (current : Option (Tier × Nat)) (settling : Nat → Bool),
      (∀ n, moves candidates settling current n ≤ 1) ∧
      (∀ k n, (chosen candidates settling current k).isSome → k < n → chosen candidates settling current n = none) ∧
      ∃ start, ∀ n, start ≤ n → chosen candidates settling current n = none) ∧
    (∀ (rtt : Nat) (candidates : List (Tier × Nat)) (settling : Bool) (i : Fin candidates.length),
      chooseSettling (some (.direct, rtt)) candidates settling = some i → candidates[i].1 = .direct) ∧
    (∀ (current : Tier × Nat) (candidates : List (Tier × Nat)) (settling : Bool) (i : Fin candidates.length),
      chooseSettling (some current) candidates settling = some i → rank candidates[i] < rank current ∧
        (candidates[i].1 = .direct → current.1 = .direct →
          candidates[i].2 + directMargin current.2 settling ≤ current.2) ∧
        (candidates[i].1 ≠ .direct → candidates[i].2 + SWITCH_MARGIN ≤ current.2)) ∧
    (∀ (policy : Spare) (rtt : Nat) (others : List (Bool × Nat)) (held : Option (Fin others.length))
        (i : Fin others.length),
      spare policy rtt others held = some i → others[i].1 = true ∧ policy.ok rtt others[i].2) ∧
    ∀ (policy : Spare) (rtt : Nat) (others : List (Bool × Nat)) (h : Fin others.length),
      Qualifies policy rtt others[h] →
      (∀ i : Fin others.length, Qualifies policy rtt others[i] → others[h].2 ≤ others[i].2 + DIRECT_MARGIN) →
        spare policy rtt others (some h) = some h := by
  refine ⟨fun candidates current settling => ⟨moves_le_one, ?_, chosen_eventually⟩, ?_, ?_, ?_, ?_⟩
  · intro k n moved later
    obtain ⟨i, first⟩ := Option.isSome_iff_exists.mp moved
    exact chosen_after first later
  · intro rtt candidates settling i moved
    have left := (chooseSettling_eq_some.mp moved).2 (.direct, rtt) rfl
    exact (leaves_direct left rfl).1
  · intro current candidates settling i moved
    have left := (chooseSettling_eq_some.mp moved).2 current rfl
    refine ⟨leaves_lowers left, fun _ direct => (leaves_direct left direct).2, fun kind => ?_⟩
    refine leaves_other left (fun direct => ?_) kind
    exact kind (leaves_direct left direct).1
  · intro policy rtt others held i kept
    exact spare_qualifies kept
  · intro policy rtt others h fit near
    exact spare_held fit near

/-- What the connection knows of one of its paths: its network path, and what was measured on it. -/
structure Path (P : Type) where
  networkPath : P
  tier : Tier
  rtt : Option Nat
  /-- How long its oldest unanswered packet has waited, where it stopped answering. -/
  unansweredFor : Option Nat

structure Context (P : Type) where
  paths : List (Path P)
  current : Option P
  backup : Option P
  heldFor : Option Nat

structure Candidate (P : Type) where
  networkPath : P
  tier : Tier
  rtt : Nat

structure Selection (P : Type) where
  selected : Option P
  backup : Option P

def Candidate.road {P : Type} (c : Candidate P) : Tier × Nat :=
  (c.tier, c.rtt)

section Select

variable {P : Type} [DecidableEq P]

/-- What is kept of the paths seen: the candidates, the path in use at its lowest round trip, and the direct path in
  use where it stalls, with how long it has. -/
structure Ranked (P : Type) where
  candidates : List (Candidate P)
  current : Option (Tier × Nat)
  stalled : List (Candidate P × Nat)

/-- The path in use, seen once more. -/
def lower (current : Option (Tier × Nat)) (road : Tier × Nat) : Option (Tier × Nat) :=
  match current with
  | some kept => if kept.2 ≤ road.2 then some kept else some road
  | none => some road

def Ranked.see (ctx : Context P) (seen : Ranked P) (p : Path P) : Ranked P :=
  match p.rtt with
  | none => seen
  | some rtt =>
      let c : Candidate P := ⟨p.networkPath, p.tier, rtt⟩
      let used := some p.networkPath = ctx.current
      match p.unansweredFor with
      | some stall =>
          if used ∧ p.tier = .direct then { seen with stalled := seen.stalled ++ [(c, stall)] } else seen
      | none =>
          { seen with
            current := if used then lower seen.current c.road else seen.current
            candidates := seen.candidates ++ [c] }

/-- The direct path in use, held while its stall is shorter than any other road's round trip. -/
def Ranked.hold (seen : Ranked P) : Ranked P :=
  let fastest := (seen.candidates.map (·.rtt)).min?
  if (seen.stalled.map (·.2)).max?.any fun stall => ridesOut stall fastest then
    { seen with
      current := seen.stalled.foldl (fun current c => lower current (.direct, c.1.rtt)) seen.current
      candidates := seen.candidates ++ seen.stalled.map fun c => { c.1 with tier := .direct } }
  else seen

def ranked (ctx : Context P) : Ranked P :=
  (ctx.paths.foldl (Ranked.see ctx) ⟨[], none, []⟩).hold

def moveTo (ctx : Context P) : Option (Candidate P) :=
  let seen := ranked ctx
  let settling := ctx.heldFor.any (· < DIRECT_DWELL)
  (chooseSettling seen.current (seen.candidates.map Candidate.road) settling).bind fun i => seen.candidates[i.val]?

/-- The path that will carry the connection: the new choice, or the one in use staying. -/
def carrying (ctx : Context P) : Option (Candidate P) :=
  match moveTo ctx with
  | some c => some c
  | none =>
      match (ranked ctx).current, ctx.current with
      | some (tier, rtt), some path => some ⟨path, tier, rtt⟩
      | _, _ => none

/-- The candidates as `spare` reads them, beside the path that carries. -/
def beside (carrying : Candidate P) (candidates : List (Candidate P)) : List (Bool × Nat) :=
  candidates.map fun c => (decide (c.tier = .direct ∧ c.networkPath ≠ carrying.networkPath), c.rtt)

/-- The path kept as the spare before, where it is among them. -/
def heldSpare (ctx : Context P) (others : List (Bool × Nat)) : Option (Fin others.length) :=
  (List.finRange others.length).find? fun i =>
    (ranked ctx).candidates[i.val]?.any fun c => decide (some c.networkPath = ctx.backup)

def select (policy : Spare) (ctx : Context P) : Selection P :=
  { selected := (moveTo ctx).map (·.networkPath)
    backup := (carrying ctx).bind fun c =>
      if c.tier = .direct then
        let others := beside c (ranked ctx).candidates
        (spare policy c.rtt others (heldSpare ctx others)).bind fun i =>
          (ranked ctx).candidates[i.val]?.map (·.networkPath)
      else none }

/-- **What is selected.** While the direct path in use answers, or rides its stall out, the connection goes to direct paths
alone; and the spare is another direct path than the one that carries, which the policy allows. -/
theorem select_sound (policy : Spare) (ctx : Context P) :
    (∀ rtt c, (ranked ctx).current = some (.direct, rtt) → moveTo ctx = some c → c.tier = .direct) ∧
    ∀ q, (select policy ctx).backup = some q → ∃ c, carrying ctx = some c ∧ c.tier = .direct ∧ q ≠ c.networkPath ∧
      ∃ d ∈ (ranked ctx).candidates, d.networkPath = q ∧ d.tier = .direct ∧ policy.ok c.rtt d.rtt := by
  refine ⟨fun rtt c used moved => ?_, fun q kept => ?_⟩
  · obtain ⟨i, picked, found⟩ := Option.bind_eq_some_iff.mp moved
    rw [used] at picked
    have left := (chooseSettling_eq_some.mp picked).2 (.direct, rtt) rfl
    have direct := (leaves_direct left rfl).1
    obtain ⟨within, rfl⟩ := List.getElem?_eq_some_iff.mp found
    simpa [Candidate.road] using direct
  · obtain ⟨c, carried, kept⟩ := Option.bind_eq_some_iff.mp kept
    by_cases direct : c.tier = .direct
    · simp only [direct, if_true] at kept
      obtain ⟨i, picked, kept⟩ := Option.bind_eq_some_iff.mp kept
      obtain ⟨d, found, rfl⟩ := Option.map_eq_some_iff.mp kept
      obtain ⟨within, rfl⟩ := List.getElem?_eq_some_iff.mp found
      have fit := spare_qualifies picked
      rw [Qualifies, Fin.getElem_fin] at fit
      simp only [beside, List.getElem_map, decide_eq_true_eq] at fit
      obtain ⟨⟨kind, another⟩, allowed⟩ := fit
      exact ⟨c, carried, direct, another, _, List.getElem_mem within, rfl, kind, allowed⟩
    · rw [if_neg direct] at kept
      cases kept

end Select

end Khor.RoadOrder
