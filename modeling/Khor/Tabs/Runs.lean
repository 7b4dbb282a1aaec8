/-
Module: Khor.Tabs.Runs
Purpose: What holds of the tab table over every run of the processes that share it.
Trusted boundary: none
Main exports: Played, Held, Held.step, Tickets.step, each_change_on_the_last
-/
import Khor.Tabs.Processes

namespace Khor.Tabs

/-- What took place made the one table of the other, with a new handle. -/
structure Entry.Turns (e : Entry) (all all' : Table) : Prop where
  change : change e.stamp e.call.kind e.call.op all = .ok (all', e.out)
  fresh : ∀ kind, e.stamp.mint ∉ (all.of kind).tabs.map Tab.id

/-- What took place, one after the other, made the table of the one at the start. -/
inductive Played (start : Table) : List Entry → Table → Prop
  | nil : Played start [] start
  | snoc {log : List Entry} {all all' : Table} {e : Entry} (h : Played start log all) (turns : e.Turns all all') :
      Played start (log ++ [e]) all'

/-- One thread has the hold, and what it goes by is the table as it is stored. -/
structure Held (start : Table) (w : World) : Prop where
  holder : ∀ t, w.holder = some t ↔ (w.thread t).holds = true
  alive : ∀ t, w.thread t ≠ .idle → w.living t.1 = true
  reads : ∀ t c all, w.thread t = .read c all → all = w.stored
  plans : ∀ t c s all out, (w.thread t).plan = some (c, s, all, out) →
    Entry.Turns ⟨c, s, out⟩ w.stored all ∧ w.Unused all
  drafts : ∀ t c s all out, w.thread t = .drafted c s all out → w.draft t.1 = some all
  unused : w.Unused w.stored
  played : Played start w.log w.stored

variable {start : Table} {w : World}

attribute [local grind =] Phase.holds Phase.call Phase.plan at_thread
attribute [local grind] World.at

variable {c : Call} {w' : World} {t : Thread} {kind : String}

theorem plan_holds {phase : Phase} {s : Stamp} {all : Table} {out : Option String}
    (is : phase.plan = some (c, s, all, out)) : phase.holds = true := by
  cases phase with
  | made | cut | drafted => rfl
  | idle | asked | holding | read | ending => cases is

section

variable (h : Held start w)
include h

/-- The world as it was, but for its clocks and processes. -/
theorem Held.clocks (unused : ∀ {all}, w.Unused all → w'.Unused all) (thread : w'.thread = w.thread)
    (holder : w'.holder = w.holder) (file : w'.file = w.file) (draft : w'.draft = w.draft)
    (log : w'.log = w.log) (living : ∀ p, w.living p = true → w'.living p = true) : Held start w' := by
  have stored : w'.stored = w.stored := congrArg (Option.getD · _) file
  refine ⟨?_, ?_, ?_, ?_, ?_, ?_, ?_⟩
  · rw [thread, holder]
    exact h.holder
  · intro t busy
    exact living _ (h.alive t (thread ▸ busy))
  · rw [thread, stored]
    exact h.reads
  · rw [thread, stored]
    exact fun t c s all out is => ⟨(h.plans t c s all out is).1, unused (h.plans t c s all out is).2⟩
  · rw [thread, draft]
    exact h.drafts
  · rw [stored]
    exact unused h.unused
  · rw [log, stored]
    exact h.played

theorem Held.kill {pid : Nat} (may : w.May (.kill pid)) : Held start (w.kill pid) := by
  have unused {all : Table} : w.Unused all → (w.kill pid).Unused all := fun h => h.later may
  have thread (t : Thread) : (w.kill pid).thread t = if t.1 = pid then .idle else w.thread t := rfl
  have hold : (w.kill pid).holder = if w.holder.any (·.1 = pid) then none else w.holder := rfl
  have stays {t : Thread} (busy : (w.kill pid).thread t ≠ .idle) : t.1 ≠ pid ∧ (w.kill pid).thread t = w.thread t := by
    rw [thread] at busy ⊢
    split at busy
    · exact absurd rfl busy
    · rename_i other
      exact ⟨other, if_neg other⟩
  refine ⟨?_, ?_, ?_, ?_, ?_, unused h.unused, h.played⟩
  · intro t
    have own := h.holder t
    rw [thread, hold]
    split
    · rename_i gone
      cases is : w.holder with
      | none =>
          rw [is] at gone
          cases gone
      | some t' =>
          have other := h.holder t'
          rw [is] at gone own
          grind
    · grind
  · intro t busy
    obtain ⟨other, same⟩ := stays busy
    exact (if_neg other).trans (h.alive t (same ▸ busy))
  · intro t c all is
    exact h.reads t c all ((stays fun none_ => nomatch (none_ ▸ is)).2 ▸ is)
  · intro t c s all out is
    obtain ⟨turns, fresh⟩ := h.plans t c s all out ((stays fun none_ => nomatch (none_ ▸ is)).2 ▸ is)
    exact ⟨turns, unused fresh⟩
  · intro t c s all out is
    exact h.drafts t c s all out ((stays fun none_ => nomatch (none_ ▸ is)).2 ▸ is)

/-- A thread that goes on from where it was. -/
theorem Held.moves (e : Event) (may : w.May e) (is : w.step e = w') (t : Thread) (phase : Phase)
    (thread : w'.thread = set w.thread t phase) (living : w'.living = w.living) (stored : w'.stored = w.stored)
    (log : w'.log = w.log) (alive : phase ≠ .idle → w.living t.1 = true)
    (holder : w'.holder = some t ↔ phase.holds = true)
    (others : ∀ t', t' ≠ t → (w'.holder = some t' ↔ w.holder = some t'))
    (reads : ∀ c all, phase = .read c all → all = w.stored)
    (plans : ∀ c s all out, phase.plan = some (c, s, all, out) → Entry.Turns ⟨c, s, out⟩ w.stored all ∧ w'.Unused all)
    (drafts : ∀ c s all out, phase = .drafted c s all out → w'.draft t.1 = some all)
    (draft : ∀ t', t' ≠ t → (w.thread t').holds = true → w'.draft t'.1 = w.draft t'.1) : Held start w' := by
  have unused {all : Table} (fresh : w.Unused all) : w'.Unused all := is ▸ fresh.later may
  refine ⟨?_, ?_, ?_, ?_, ?_, stored ▸ unused h.unused, log ▸ stored ▸ h.played⟩
  all_goals intro t'
  all_goals rw [thread, set_apply]
  all_goals by_cases same : t' = t
  all_goals first | (subst same; rw [if_pos rfl]) | rw [if_neg same]
  · exact holder
  · exact (others t' same).trans (h.holder t')
  · exact fun busy => living ▸ alive busy
  · exact fun busy => living ▸ h.alive t' busy
  · exact stored ▸ reads
  · exact stored ▸ h.reads t'
  · exact stored ▸ plans
  · intro c s all out plan
    obtain ⟨turns, fresh⟩ := h.plans t' c s all out plan
    exact ⟨stored ▸ turns, unused fresh⟩
  · exact drafts
  · intro c s all out drafted
    rw [draft t' same (by rw [drafted]; rfl)]
    exact h.drafts t' c s all out drafted

/-- A thread that goes on to where it has read and made nothing. -/
theorem Held.goes (e : Event) (may : w.May e) (is : w.step e = w') (t : Thread) (phase : Phase)
    (thread : w'.thread = set w.thread t phase) (living : w'.living = w.living) (stored : w'.stored = w.stored)
    (log : w'.log = w.log) (alive : phase ≠ .idle → w.living t.1 = true)
    (holder : w'.holder = some t ↔ phase.holds = true)
    (others : ∀ t', t' ≠ t → (w'.holder = some t' ↔ w.holder = some t')) (unread : ∀ c all, phase ≠ .read c all)
    (unmade : phase.plan = none) (draft : ∀ t', t' ≠ t → (w.thread t').holds = true → w'.draft t'.1 = w.draft t'.1) :
    Held start w' := by
  refine h.moves e may is t phase thread living stored log alive holder others ?_ ?_ ?_ draft
  · exact fun c all is => absurd is (unread c all)
  · intro c s all out plan
    cases unmade.symm.trans plan
  · rintro c s all out rfl
    cases unmade

/-- Two threads do not hold at once. -/
theorem Held.alone {t t' : Thread} (holds : (w.thread t).holds = true)
    (holds' : (w.thread t').holds = true) : t' = t :=
  Option.some.inj (((h.holder t').mpr holds').symm.trans ((h.holder t).mpr holds))

/-- A thread whose call fails while it holds the table. -/
theorem Held.fails {e : Event} (may : w.May e) (holds : (w.thread t).holds = true) {text : String}
    (is : w.step e = w') (thread : w'.thread = set w.thread t (.ending c (.error text))) (living : w'.living = w.living)
    (stored : w'.stored = w.stored) (log : w'.log = w.log) (holder : w'.holder = w.holder) : Held start w' := by
  have busy : w.thread t ≠ .idle := fun idle => nomatch (idle ▸ holds : Phase.idle.holds = true)
  refine h.goes e may is t _ thread living stored log (fun _ => h.alive t busy) ?_ (fun _ _ => holder ▸ .rfl) nofun rfl
    fun t' other holds' => absurd (h.alone holds holds') other
  exact iff_of_true (holder ▸ (h.holder t).mpr holds) rfl

theorem Held.ask {op : Op} (may : w.May (.ask t kind op)) : Held start (w.ask t kind op) := by
  have later : ∀ {all}, w.Unused all → (w.ask t kind op).Unused all := fun fresh => fresh.later may
  obtain ⟨living, idle⟩ := may
  unfold World.ask at later ⊢
  split
  · rename_i e refused
    rw [refused] at later
    exact h.clocks later rfl rfl rfl rfl rfl fun _ => id
  · rename_i view checked
    have not_ : w.holder ≠ some t := by
      rw [Ne, h.holder t, idle]
      exact nofun
    refine h.goes (.ask t kind op) ⟨living, idle⟩ ?_ t (.asked ⟨w.calls, kind, op⟩) rfl rfl rfl rfl
      (fun _ => living) (iff_of_false not_ Bool.false_ne_true) (fun _ _ => .rfl) nofun rfl fun _ _ _ => rfl
    show w.ask t kind op = _
    unfold World.ask
    rw [checked]

theorem Held.take {t : Thread} {fails : Option String} (may : w.May (.take t fails)) :
    Held start (w.take t fails) := by
  have step : w.step (.take t fails) = w.take t fails := rfl
  unfold World.take at step ⊢
  split at step
  · rename_i c is
    have free : w.holder = none := may
    refine h.goes _ may step t (.holding c) rfl rfl rfl rfl
      (fun _ => h.alive t (is ▸ nofun)) (iff_of_true rfl rfl) ?_ nofun rfl fun _ _ _ => rfl
    intro t' other
    rw [free]
    exact iff_of_false (fun same => other (Option.some.inj same).symm) nofun
  · rename_i c e is
    have not_ : w.holder ≠ some t := by
      rw [Ne, h.holder t, is]
      exact nofun
    exact h.goes _ may step t .idle rfl rfl rfl rfl (fun busy => absurd rfl busy)
      (iff_of_false not_ Bool.false_ne_true) (fun _ _ => .rfl) nofun rfl fun _ _ _ => rfl
  · exact h

theorem Held.read : Held start (w.read t) := by
  have step : w.step (.read t) = w.read t := rfl
  unfold World.read at step ⊢
  split at step
  · rename_i c is
    refine h.moves (.read t) trivial step t (.read c w.stored) rfl rfl rfl rfl
      (fun _ => h.alive t (is ▸ nofun)) (iff_of_true ((h.holder t).mpr (is ▸ rfl)) rfl) (fun _ _ => .rfl) ?_
      nofun nofun fun _ _ _ => rfl
    rintro c all ⟨⟩
    rfl
  · exact h

theorem Held.cut {t : Thread} {fails : Option String} : Held start (w.cut t fails) := by
  have step : w.step (.cut t fails) = w.cut t fails := rfl
  unfold World.cut at step ⊢
  split at step
  · rename_i c s all out is
    have holds : (w.thread t).holds = true := is ▸ rfl
    refine h.moves (.cut t none) trivial step t (.cut c s all out) rfl rfl rfl rfl
      (fun _ => h.alive t (is ▸ nofun)) (iff_of_true ((h.holder t).mpr holds) rfl) (fun _ _ => .rfl) nofun ?_
      nofun fun t' other holds' => absurd (h.alone holds holds') other
    rintro c s all out ⟨⟩
    obtain ⟨turns, fresh⟩ := h.plans t c s all out (is ▸ rfl)
    exact ⟨turns, step ▸ fresh.later (e := .cut t none) trivial⟩
  · rename_i c _ _ _ e is
    exact h.fails (e := .cut t (some e)) trivial (is ▸ rfl) step rfl rfl rfl rfl rfl
  · exact h

theorem Held.write {t : Thread} {fails : Option String} : Held start (w.write t fails) := by
  have step : w.step (.write t fails) = w.write t fails := rfl
  unfold World.write at step ⊢
  split at step
  · rename_i c s all out is
    have holds : (w.thread t).holds = true := is ▸ rfl
    refine h.moves (.write t none) trivial step t (.drafted c s all out) rfl rfl rfl rfl
      (fun _ => h.alive t (is ▸ nofun)) (iff_of_true ((h.holder t).mpr holds) rfl) (fun _ _ => .rfl) nofun ?_
      ?_ fun t' other holds' => absurd (h.alone holds holds') other
    · rintro c s all out ⟨⟩
      obtain ⟨turns, fresh⟩ := h.plans t c s all out (is ▸ rfl)
      exact ⟨turns, step ▸ fresh.later (e := .write t none) trivial⟩
    · rintro c s all out ⟨⟩
      exact if_pos rfl
  · rename_i c _ _ _ e is
    exact h.fails (e := .write t (some e)) trivial (is ▸ rfl) step rfl rfl rfl rfl rfl
  · exact h

theorem Held.leave : Held start (w.leave t) := by
  have step : w.step (.leave t) = w.leave t := rfl
  unfold World.leave at step ⊢
  split at step
  · rename_i c answer is
    have holds : w.holder = some t := (h.holder t).mpr (is ▸ rfl)
    refine h.goes (.leave t) trivial step t .idle rfl rfl rfl rfl (fun busy => absurd rfl busy)
      (iff_of_false nofun Bool.false_ne_true) ?_ nofun rfl fun _ _ _ => rfl
    intro t' other
    rw [holds]
    exact iff_of_false nofun fun same => other (Option.some.inj same).symm
  · exact h

/-- The table that a thread makes holds no handle that may still be minted. -/
theorem work_unused {now : Nat} (may : w.May (.work t now)) {all : Table}
    (is : w.thread t = .read c all) {all' : Table} {out : Option String}
    (made : change (w.stamp t now) c.kind c.op all = .ok (all', out)) : (w.work t now).Unused all' := by
  have old : (w.work t now).Unused all := h.reads t c all is ▸ h.unused.later may
  have alive : w.living t.1 = true := h.alive t (is ▸ nofun)
  have le : w.clock ≤ now := may
  unfold change at made
  split at made
  · rename_i o out' worked
    cases made
    intro kind row mem s later
    unfold Table.of Table.put at mem
    split at mem
    · obtain ⟨was, there, same⟩ | ⟨mints, same⟩ := Op.work_ids worked (mem_settle.mp mem)
      · exact same ▸ old c.kind was there s later
      · rw [same]
        intro minted
        obtain ⟨ms, pid, n⟩ := mint_inj minted
        have counted : (w.work t now).clock = now ∧ (w.work t now).living = w.living ∧
            (w.work t now).counter = set w.counter t.1 (w.counter t.1 + 1) := by
          unfold World.work
          rw [is]
          dsimp only
          split <;> exact ⟨rfl, rfl, if_pos mints⟩
        obtain ⟨clock, living, counter⟩ := counted
        unfold World.MayMint at later
        rw [clock, living, counter, ← pid, ← ms, ← n] at later
        change now < w.clock ∨ now = w.clock ∧
          (if w.living t.1 = true then set w.counter t.1 (w.counter t.1 + 1) t.1 ≤ w.counter t.1 else _) at later
        rw [if_pos alive, set_apply, if_pos rfl] at later
        omega
    · exact old kind row mem s later
  · cases made

theorem Held.work {now : Nat} (may : w.May (.work t now)) : Held start (w.work t now) := by
  have step : w.step (.work t now) = w.work t now := rfl
  cases is : w.thread t with
  | read c all =>
      have alive : w.living t.1 = true := h.alive t (is ▸ nofun)
      have holder : w.holder = some t := (h.holder t).mpr (is ▸ rfl)
      cases made : change (w.stamp t now) c.kind c.op all with
      | ok went =>
          obtain ⟨all', out⟩ := went
          have work : w.work t now = (w.counted t now c all).at t (.made c (w.stamp t now) all' out) := by
            unfold World.work
            rw [is]
            dsimp only
            rw [made]
          have new : (w.work t now).Unused all' := work_unused h may is made
          rw [work] at step new ⊢
          refine h.moves _ may step t (.made c (w.stamp t now) all' out) rfl rfl rfl rfl
            (fun _ => alive) (iff_of_true holder rfl) (fun _ _ => .rfl) nofun ?_ nofun fun _ _ _ => rfl
          rintro c s all' out ⟨⟩
          refine ⟨⟨h.reads t c all is ▸ made, fun kind mem => ?_⟩, new⟩
          obtain ⟨row, there, same⟩ := List.mem_map.mp mem
          have mayMint : w.MayMint (w.stamp t now) := by
            refine .inr ⟨rfl, ?_⟩
            show if w.living t.1 = true then w.counter t.1 ≤ w.counter t.1 else _
            rw [if_pos alive]
          exact h.unused kind row there _ mayMint same
      | error e =>
          have work : w.work t now = (w.counted t now c all).at t (.ending c (.error e)) := by
            unfold World.work
            rw [is]
            dsimp only
            rw [made]
          rw [work] at step ⊢
          exact h.fails may (is ▸ rfl) step rfl rfl rfl rfl rfl
  | idle | asked | holding | made | cut | drafted | ending =>
      unfold World.work
      rw [is]
      exact h

/-- The rename puts in place what its thread made of the table that is there. -/
theorem Held.rename {fails : Option String} : Held start (w.rename t fails) := by
  have step : w.step (.rename t fails) = w.rename t fails := rfl
  unfold World.rename at step ⊢
  split at step
  · rename_i c s all out is
    have holds : (w.thread t).holds = true := is ▸ rfl
    obtain ⟨turns, fresh⟩ := h.plans t c s all out (is ▸ rfl)
    have draft : w.draft t.1 = some all := h.drafts t c s all out is
    have later := fresh.later (e := .rename t none) trivial
    rw [step] at later
    rw [draft] at later ⊢
    have idle {t' : Thread} (other : t' ≠ t) : (w.thread t').holds = false := by
      cases holds' : (w.thread t').holds with
      | false => rfl
      | true => exact absurd (h.alone holds holds') other
    refine ⟨?_, ?_, ?_, ?_, ?_, later, h.played.snoc turns⟩
    all_goals intro t'
    all_goals rw [at_thread, set_apply]
    all_goals by_cases same : t' = t
    all_goals first | (subst same; rw [if_pos rfl]) | rw [if_neg same]
    · exact iff_of_true ((h.holder t').mpr holds) rfl
    · exact h.holder t'
    · exact fun _ => h.alive t' (is ▸ nofun)
    · exact h.alive t'
    · exact nofun
    · intro c all is'
      exact nomatch (idle same).symm.trans (is' ▸ rfl : (w.thread t').holds = true)
    · exact nofun
    · intro c s all out plan
      exact nomatch (idle same).symm.trans (plan_holds plan)
    · exact nofun
    · intro c s all out is'
      exact nomatch (idle same).symm.trans (is' ▸ rfl : (w.thread t').holds = true)
  · rename_i c _ _ _ e is
    exact h.fails (e := .rename t (some e)) trivial (is ▸ rfl) step rfl rfl rfl rfl rfl
  · exact h

theorem Held.step {e : Event} (may : w.May e) : Held start (w.step e) := by
  cases e with
  | tick ms => exact h.clocks (fun fresh => fresh.later may) rfl rfl rfl rfl rfl fun _ => id
  | spawn pid =>
      refine h.clocks (fun fresh => fresh.later may) rfl rfl rfl rfl rfl fun p living => ?_
      show set w.living pid true p = true
      rw [set_apply]
      split
      · rfl
      · exact living
  | kill pid => exact h.kill may
  | ask t kind op => exact h.ask may
  | take t fails => exact h.take may
  | read t => exact h.read
  | work t now => exact h.work may
  | cut t fails => exact h.cut
  | write t fails => exact h.write
  | rename t fails => exact h.rename
  | leave t => exact h.leave

end

/-- Each call is on one thread, takes place at most once, and answers what became of it. -/
structure Tickets (w : World) : Prop where
  recent : ∀ t c, (w.thread t).call = some c → c.ticket < w.calls
  own : ∀ t t' c c', (w.thread t).call = some c → (w.thread t').call = some c' → c.ticket = c'.ticket → t = t'
  loggedRecent : ∀ e ∈ w.log, e.call.ticket < w.calls
  answeredRecent : ∀ a ∈ w.answers, a.1 < w.calls
  unanswered : ∀ a ∈ w.answers, ∀ t c, (w.thread t).call = some c → c.ticket ≠ a.1
  once : (w.log.map (·.call.ticket)).Nodup
  before : ∀ t c, (w.thread t).call = some c → (∀ out, w.thread t ≠ .ending c (.ok out)) →
    ∀ e ∈ w.log, e.call.ticket ≠ c.ticket
  ended : ∀ t c out, w.thread t = .ending c (.ok out) → ∃ e ∈ w.log, e.call.ticket = c.ticket ∧ e.out = out
  answered : ∀ k out, (k, .ok out) ∈ w.answers → ∃ e ∈ w.log, e.call.ticket = k ∧ e.out = out
  refused : ∀ k text, (k, .error text) ∈ w.answers → ∀ e ∈ w.log, e.call.ticket ≠ k

section

variable (h : Tickets w)
include h

/-- A thread goes on with its call. -/
theorem Tickets.goes {phase : Phase} (call : (w.thread t).call = some c)
    (notYet : ∀ out, w.thread t ≠ .ending c (.ok out)) (thread : w'.thread = set w.thread t phase)
    (same : phase.call = some c) (notEnded : ∀ c out, phase ≠ .ending c (.ok out)) (calls : w'.calls = w.calls)
    (log : w'.log = w.log) (answers : w'.answers = w.answers) : Tickets w' := by
  have there (k : Thread) : w'.thread k = if k = t then phase else w.thread k := congrFun thread k
  cases h
  constructor
  all_goals grind

/-- A call ends with its answer. -/
theorem Tickets.ends {answer : Except String (Option String)} (call : (w.thread t).call = some c)
    (is : w.thread t = .ending c answer ∨ (∃ text, answer = .error text) ∧ ∀ out, w.thread t ≠ .ending c (.ok out))
    (thread : w'.thread = set w.thread t .idle) (calls : w'.calls = w.calls) (log : w'.log = w.log)
    (answers : w'.answers = (c.ticket, answer) :: w.answers) : Tickets w' := by
  have there (k : Thread) : w'.thread k = if k = t then .idle else w.thread k := congrFun thread k
  cases h
  constructor
  all_goals grind

/-- A call that is refused before it waits for the hold. -/
theorem Tickets.turnedAway {text : String} (thread : w'.thread = w.thread) (calls : w'.calls = w.calls + 1)
    (log : w'.log = w.log) (answers : w'.answers = (w.calls, .error text) :: w.answers) : Tickets w' := by
  cases h
  constructor
  all_goals simp only [thread, calls, log, answers]
  all_goals grind

theorem Tickets.asks (is : c.ticket = w.calls) (thread : w'.thread = set w.thread t (.asked c))
    (calls : w'.calls = w.calls + 1) (log : w'.log = w.log) (answers : w'.answers = w.answers) : Tickets w' := by
  have there (k : Thread) : w'.thread k = if k = t then .asked c else w.thread k := congrFun thread k
  cases h
  constructor
  all_goals grind

/-- A call takes place. -/
theorem Tickets.logs {e : Entry} (call : (w.thread t).call = some e.call)
    (notYet : ∀ out, w.thread t ≠ .ending e.call (.ok out))
    (thread : w'.thread = set w.thread t (.ending e.call (.ok e.out))) (calls : w'.calls = w.calls)
    (log : w'.log = w.log ++ [e]) (answers : w'.answers = w.answers) : Tickets w' := by
  have there (k : Thread) : w'.thread k = if k = t then .ending e.call (.ok e.out) else w.thread k := congrFun thread k
  have nodup : (w'.log.map (·.call.ticket)).Nodup := by
    rw [log, List.map_append, List.nodup_append]
    refine ⟨h.once, List.nodup_singleton _, fun k old k' new same => ?_⟩
    obtain ⟨e', mem, rfl⟩ := List.mem_map.mp old
    obtain rfl := List.mem_singleton.mp new
    exact h.before t e.call call notYet e' mem same
  cases h
  refine ⟨?_, ?_, ?_, ?_, ?_, nodup, ?_, ?_, ?_, ?_⟩
  all_goals grind

/-- Threads end. -/
theorem Tickets.fewer (thread : ∀ t, w'.thread t = .idle ∨ w'.thread t = w.thread t)
    (calls : w'.calls = w.calls) (log : w'.log = w.log) (answers : w'.answers = w.answers) : Tickets w' := by
  cases h
  have kept {t : Thread} {c : Call} (is : (w'.thread t).call = some c) : w'.thread t = w.thread t := by
    obtain idle | same := thread t
    · rw [idle] at is
      cases is
    · exact same
  constructor
  all_goals grind

theorem Tickets.step (e : Event) : Tickets (w.step e) := by
  cases e with
  | tick | spawn => exact h.fewer (fun _ => .inr rfl) rfl rfl rfl
  | kill pid =>
      refine h.fewer (fun t => ?_) rfl rfl rfl
      show (if t.1 = pid then .idle else w.thread t) = _ ∨ (if t.1 = pid then .idle else w.thread t) = _
      split
      · exact .inl rfl
      · exact .inr rfl
  | ask t kind op =>
      show Tickets (w.ask t kind op)
      unfold World.ask
      split
      · exact h.turnedAway rfl rfl rfl rfl
      · exact h.asks (c := ⟨w.calls, kind, op⟩) rfl rfl rfl rfl rfl
  | take t fails =>
      show Tickets (w.take t fails)
      unfold World.take
      split
      · rename_i c is
        exact h.goes (is ▸ rfl : _ = some c) (is ▸ nofun) rfl rfl nofun rfl rfl rfl
      · rename_i c text is
        exact h.ends (is ▸ rfl : _ = some c) (.inr ⟨⟨text, rfl⟩, is ▸ nofun⟩) rfl rfl rfl rfl
      · exact h
  | read t =>
      show Tickets (w.read t)
      unfold World.read
      split
      · rename_i c is
        exact h.goes (is ▸ rfl : _ = some c) (is ▸ nofun) rfl rfl nofun rfl rfl rfl
      · exact h
  | work t now =>
      show Tickets (w.work t now)
      unfold World.work
      split
      · rename_i c all is
        split
        · exact h.goes (is ▸ rfl : _ = some c) (is ▸ nofun) rfl rfl nofun rfl rfl rfl
        · exact h.goes (is ▸ rfl : _ = some c) (is ▸ nofun) rfl rfl nofun rfl rfl rfl
      · exact h
  | cut t fails =>
      show Tickets (w.cut t fails)
      unfold World.cut
      split
      · rename_i c _ _ _ is
        exact h.goes (is ▸ rfl : _ = some c) (is ▸ nofun) rfl rfl nofun rfl rfl rfl
      · rename_i c _ _ _ _ is
        exact h.goes (is ▸ rfl : _ = some c) (is ▸ nofun) rfl rfl nofun rfl rfl rfl
      · exact h
  | write t fails =>
      show Tickets (w.write t fails)
      unfold World.write
      split
      · rename_i c _ _ _ is
        exact h.goes (is ▸ rfl : _ = some c) (is ▸ nofun) rfl rfl nofun rfl rfl rfl
      · rename_i c _ _ _ _ is
        exact h.goes (is ▸ rfl : _ = some c) (is ▸ nofun) rfl rfl nofun rfl rfl rfl
      · exact h
  | rename t fails =>
      show Tickets (w.rename t fails)
      unfold World.rename
      split
      · rename_i c s _ out is
        exact h.logs (e := ⟨c, s, out⟩) (is ▸ rfl) (is ▸ nofun) rfl rfl rfl rfl
      · rename_i c _ _ _ _ is
        exact h.goes (is ▸ rfl : _ = some c) (is ▸ nofun) rfl rfl nofun rfl rfl rfl
      · exact h
  | leave t =>
      show Tickets (w.leave t)
      unfold World.leave
      split
      · rename_i c answer is
        exact h.ends (is ▸ rfl : _ = some c) (.inl is) rfl rfl rfl rfl
      · exact h

end

/-! ### What took place -/

section Turns

variable {e : Entry} {all all' : Table}

theorem Entry.Turns.worked (h : e.Turns all all') :
    ∃ o, e.call.op.work e.stamp e.call.kind (all.of e.call.kind) = .ok (o, e.out) ∧ all' = all.put e.call.kind o.settle := by
  have made := h.change
  unfold Tabs.change at made
  split at made
  · rename_i o out worked
    cases made
    exact ⟨o, worked, rfl⟩
  · cases made

theorem of_put (all : Table) (kind : String) (o : Open) : (all.put kind o).of kind = o := by
  unfold Table.of Table.put
  rw [if_pos rfl]
  rfl

theorem of_put_other {k : String} {o : Open} (other : k ≠ kind) : (all.put kind o).of k = all.of k := by
  unfold Table.of Table.put
  rw [if_neg other]

/-- What an operation that took place made of the table. -/
structure Entry.Keeps (e : Entry) (all all' : Table) : Prop where
  change : change e.stamp e.call.kind e.call.op all = .ok (all', e.out)
  kinds : ∀ kind, kind ≠ e.call.kind → all' kind = all kind
  spared : ∀ t ∈ (all.of e.call.kind).tabs, e.call.op.Spares (all.of e.call.kind) t → t ∈ (all'.of e.call.kind).tabs
  replaced : ∀ want, e.call.op = .saveAll want →
    ∃ o, Replaced want (all.of e.call.kind) o ∧ all'.of e.call.kind = o.settle
  reordered : ∀ session ids, e.call.op = .reorder session ids → (all.of e.call.kind).Sound →
    (all.of e.call.kind).Settled → Reordered session (all.of e.call.kind) (all'.of e.call.kind)

theorem Entry.Turns.keeps (h : e.Turns all all') : e.Keeps all all' := by
  obtain ⟨o, worked, rfl⟩ := h.worked
  refine ⟨h.change, fun kind other => if_neg other, ?_, ?_, ?_⟩
  · intro t mem spares
    rw [of_put]
    exact mem_settle.mpr (Op.work_spares (h.fresh e.call.kind) worked mem spares)
  · intro want is
    rw [is] at worked
    exact ⟨o, saveAll_replaced (map_ok worked), of_put ..⟩
  · intro session ids is sound settled
    rw [is] at worked
    rw [of_put]
    exact reorder_rows sound settled (map_ok worked)

theorem Entry.Turns.sound (h : e.Turns all all') (once : e.call.kind = kind → e.call.op.Once)
    (sound : (all.of kind).Sound) : (all'.of kind).Sound := by
  obtain ⟨o, worked, rfl⟩ := h.worked
  by_cases own : kind = e.call.kind
  · subst own
    rw [of_put]
    exact (Op.work_sound sound (h.fresh _) (once rfl) worked).settle
  · rw [of_put_other own]
    exact sound

theorem Entry.Turns.settled (h : e.Turns all all') (settled : (all.of kind).Settled ∨ e.call.kind = kind) :
    (all'.of kind).Settled := by
  obtain ⟨o, worked, rfl⟩ := h.worked
  by_cases own : e.call.kind = kind
  · subst own
    rw [of_put]
    exact settle_settled o
  · rw [of_put_other (Ne.symm own)]
    exact settled.resolve_right own

end Turns

section Played

variable {log : List Entry} {all : Table}

theorem Played.sound (h : Played start log all) (once : ∀ e ∈ log, e.call.kind = kind → e.call.op.Once)
    (sound : (start.of kind).Sound) : (all.of kind).Sound := by
  induction h with
  | nil => exact sound
  | snoc _ turns ih =>
      exact turns.sound (once _ (List.mem_append_right _ (.head _))) (ih fun e mem => once e (List.mem_append_left _ mem))

theorem Played.settled (h : Played start log all) (settled : (start.of kind).Settled ∨ ∃ e ∈ log, e.call.kind = kind) :
    (all.of kind).Settled := by
  induction h with
  | nil =>
      obtain settled | ⟨e, none_, _⟩ := settled
      · exact settled
      · cases none_
  | snoc _ turns ih =>
      refine turns.settled ?_
      obtain settled | ⟨e, mem, own⟩ := settled
      · exact .inl (ih (.inl settled))
      · obtain before | last := List.mem_append.mp mem
        · exact .inl (ih (.inr ⟨e, before, own⟩))
        · exact .inr (List.mem_singleton.mp last ▸ own)

/-- Each operation turned the table that the ones before it had left. -/
theorem Played.each (h : Played start log all) {before after : List Entry} {e : Entry}
    (is : log = before ++ e :: after) : ∃ mid mid', Played start before mid ∧ e.Turns mid mid' := by
  induction h generalizing after with
  | nil => exact absurd is (by simp)
  | snoc played turns ih =>
      cases after using List.reverseRecOn with
      | nil =>
          obtain ⟨rfl, last⟩ := List.append_inj' is rfl
          obtain rfl := List.singleton_inj.mp last
          exact ⟨_, _, played, turns⟩
      | append_singleton after last _ =>
          rw [← List.cons_append, ← List.append_assoc] at is
          exact ih (List.append_inj' is rfl).1

end Played

theorem Held.initial (file : Option Table) (clock : Nat)
    (unused : (World.start file clock).Unused (World.start file clock).stored) :
    Held (World.start file clock).stored (World.start file clock) where
  holder t := iff_of_false (Option.some_ne_none t).symm Bool.false_ne_true
  alive _ busy := absurd rfl busy
  reads _ _ _ is := Phase.noConfusion is
  plans _ _ _ _ _ is := absurd is (Option.some_ne_none _).symm
  drafts _ _ _ _ _ is := Phase.noConfusion is
  unused := unused
  played := .nil

theorem Tickets.initial (file : Option Table) (clock : Nat) : Tickets (World.start file clock) where
  recent _ c is := absurd is (Option.some_ne_none c).symm
  own _ _ c _ is := absurd is (Option.some_ne_none c).symm
  loggedRecent _ mem := absurd mem List.not_mem_nil
  answeredRecent _ mem := absurd mem List.not_mem_nil
  unanswered _ mem := absurd mem List.not_mem_nil
  once := List.nodup_nil
  before _ c is := absurd is (Option.some_ne_none c).symm
  ended _ _ _ is := Phase.noConfusion is
  answered _ _ mem := absurd mem List.not_mem_nil
  refused _ _ mem := absurd mem List.not_mem_nil

/-- Whatever processes do with the table and wherever they are killed, each operation that took place turned the table
that the ones before it had left, and those that failed did not take place. So the front names a tab and pinned tabs come
first, and where no whole list named an id twice, the tabs of a kind keep ids of their own and a request of a session
names one tab. -/
theorem each_change_on_the_last (file : Option Table) (clock : Nat)
    (minted : ∀ kind, ∀ t ∈ ((World.start file clock).stored.of kind).tabs, ∀ s : Stamp, clock ≤ s.ms → t.id ≠ s.mint)
    {w : World} (run : Runs World.step World.May (World.start file clock) w) :
    (∀ kind, (∀ e ∈ w.log, e.call.kind = kind → e.call.op.Once) →
      ((World.start file clock).stored.of kind).Sound → (w.stored.of kind).Sound) ∧
    (∀ kind, ((World.start file clock).stored.of kind).Settled ∨ (∃ e ∈ w.log, e.call.kind = kind) →
      (w.stored.of kind).Settled) ∧
    Played (World.start file clock).stored w.log w.stored ∧
    (∀ before e after, w.log = before ++ e :: after →
      ∃ all all', Played (World.start file clock).stored before all ∧ e.Keeps all all') ∧
    (w.log.map (·.call.ticket)).Nodup ∧
    (∀ ticket out, (ticket, .ok out) ∈ w.answers → ∃ e ∈ w.log, e.call.ticket = ticket ∧ e.out = out) ∧
    (∀ ticket text, (ticket, .error text) ∈ w.answers → ∀ e ∈ w.log, e.call.ticket ≠ ticket) := by
  have held : Held (World.start file clock).stored w := by
    refine run.invariant (fun may h => h.step may) (Held.initial file clock fun {kind t} mem s may => ?_)
    refine minted kind t mem s ?_
    obtain later | ⟨now, _⟩ := may
    · exact Nat.le_of_lt later
    · exact Nat.le_of_eq now
  have tickets : Tickets w := by
    exact run.invariant (fun _ h => h.step _) (Tickets.initial file clock)
  refine ⟨fun kind once sound => held.played.sound once sound, fun kind settled => held.played.settled settled, held.played,
    fun before e after is => ?_, tickets.once, tickets.answered, tickets.refused⟩
  obtain ⟨mid, mid', played, turns⟩ := held.played.each is
  exact ⟨mid, mid', played, turns.keeps⟩

/-- One process pins a page. -/
def pinning : List Event :=
  [.spawn 7, .ask (7, 0) "page" (.adoptPinned "desk" "https://khor.example/"), .take (7, 0) none, .read (7, 0),
    .work (7, 0) 1, .cut (7, 0) none, .write (7, 0) none, .rename (7, 0) none, .leave (7, 0)]

theorem each_change_on_the_last_pinning :
    ((pinning.foldl World.step (World.start none 1)).stored.of "page").Settled := by
  have run : Runs World.step World.May (World.start none 1) (pinning.foldl World.step (World.start none 1)) :=
    Fits.runs ⟨⟨rfl, by decide⟩, ⟨rfl, rfl⟩, rfl, trivial, Nat.le_refl _, trivial, trivial, trivial, trivial,
      trivial⟩
  exact (each_change_on_the_last none 1 (fun _ _ none_ => nomatch none_) run).2.1 "page"
    (.inl ⟨.inl ⟨rfl, rfl⟩, .nil⟩)

def row (id url session : String) (pinned : Bool) : Tab :=
  { id, device := "desk", url, title := "", pinned, touched := 0, session, view := none, request := "" }

/-- All of a call. -/
def through (t : Thread) (kind : String) (op : Op) : List Event :=
  [.ask t kind op, .take t none, .read t, .work t 1, .cut t none, .write t none, .rename t none, .leave t]

/-- One page is open, and pinned. -/
def onePage : World := World.start (some (Table.put (fun _ => none) "page" ⟨[row "a" "old" "" true], "a"⟩)) 1

/-- One process points the page somewhere, and another then saves the list as it knew it. -/
def pointing : List Event :=
  [.spawn 1, .spawn 2] ++ through (1, 0) "page" (.goWithView "a" "desk" "new" "" none) ++
    through (2, 0) "page" (.saveAll ⟨[row "a" "old" "" false], "a"⟩)

/-- One process opens a page, and another then opens one with a limit of one tab. -/
def opening : List Event :=
  [.spawn 1, .spawn 2] ++ through (1, 0) "page" (.openRequested none "desk" "one" "" "" none "") ++
    through (2, 0) "page" (.openRequested (some 1) "desk" "two" "" "" none "")

/-- A whole list points a tab that it names back to where it was, a limit closes a tab that another process opened, and
an order that moves a pinned tab past another one moves a tab of another session. -/
theorem changes_undone_by_others :
    (∃ w, Runs World.step World.May onePage w ∧ (0, .ok none) ∈ w.answers ∧
      (w.stored.of "page").tabs.map Tab.url = ["old"]) ∧
    (∃ w, Runs World.step World.May onePage w ∧ (0, .ok (some "t1-1-0")) ∈ w.answers ∧
      "t1-1-0" ∉ (w.stored.of "page").tabs.map Tab.id) ∧
    ∃ o o' : Open, o.Sound ∧ o.Settled ∧ reorder "s" ["b", "a"] o = .ok o' ∧
      (o.tabs.map Tab.id = ["a", "f", "b"] ∧ o.tabs.map Tab.session = ["s", "", "s"]) ∧
      o'.settle.tabs.map Tab.id = ["a", "b", "f"] := by
  refine ⟨⟨pointing.foldl World.step onePage, Fits.runs ?_, .tail _ (.head _), by decide⟩,
    ⟨opening.foldl World.step onePage, Fits.runs ?_, .tail _ (.head _), by decide⟩,
    ⟨[row "a" "" "s" true, row "f" "" "" false, row "b" "" "s" false], "a"⟩, _,
    ⟨by decide, by decide⟩, ⟨.inr ⟨_, .head _, rfl⟩, by decide⟩, rfl, by decide, by decide⟩
  · exact ⟨⟨rfl, by decide⟩, ⟨rfl, by decide⟩, ⟨rfl, rfl⟩, rfl, trivial, Nat.le_refl _, trivial, trivial,
      trivial, trivial, ⟨rfl, rfl⟩, rfl, trivial, Nat.le_refl _, trivial, trivial, trivial, trivial, trivial⟩
  · exact ⟨⟨rfl, by decide⟩, ⟨rfl, by decide⟩, ⟨rfl, rfl⟩, rfl, trivial, Nat.le_refl _, trivial, trivial,
      trivial, trivial, ⟨rfl, rfl⟩, rfl, trivial, Nat.le_refl _, trivial, trivial, trivial, trivial, trivial⟩

end Khor.Tabs
