/-
Module: Khor.Tabs.Processes
Purpose: Any number of processes, each with any number of threads, over one tab table: the hold, the read, the draft
  beside the file and the rename over it, with kills and failures at every step.
Trusted boundary: `flock`, which the kernel takes back from a killed process; `rename`; a clock that is not set back,
  and a process number that is not given again within the millisecond its owner died in
Main exports: Call, Phase, Entry, World.step, World.May
-/
import Khor.Lib.Runs
import Khor.Tabs.Order

namespace Khor.Tabs

/-! ### Handles -/

variable {s : Stamp}

/-- Handles tell apart the millisecond, the process and the count. -/
theorem mint_inj {s' : Stamp} (same : s.mint = s'.mint) : s.ms = s'.ms ∧ s.pid = s'.pid ∧ s.n = s'.n := by
  have marks : ∀ d < 16, '-' ≠ d.digitChar := by decide
  have lists : Nat.toDigits 16 s.ms ++ '-' :: (Nat.toDigits 16 s.pid ++ '-' :: Nat.toDigits 10 s.n) =
      Nat.toDigits 16 s'.ms ++ '-' :: (Nat.toDigits 16 s'.pid ++ '-' :: Nat.toDigits 10 s'.n) := by
    have texts := congrArg String.toList same
    simpa [Stamp.mint, hexadecimal, Nat.toList_repr] using texts
  obtain ⟨ms, rest⟩ := cut_at_mark (notMem_toDigits (by omega) (by omega) marks _)
    (notMem_toDigits (by omega) (by omega) marks _) lists
  obtain ⟨pid, n⟩ := cut_at_mark (notMem_toDigits (by omega) (by omega) marks _)
    (notMem_toDigits (by omega) (by omega) marks _) rest
  exact ⟨toDigits_inj (by omega) (by omega) ms, toDigits_inj (by omega) (by omega) pid,
    toDigits_inj (by omega) (by omega) n⟩

/-- The operation mints a handle. -/
def Op.mints (o : Open) : Op → Bool
  | .openRequested _ _ _ session _ _ request => (o.requested session request).isNone
  | .adoptPinned .. => true
  | _ => false

/-- No row comes under another id than one that was there or the one minted. -/
theorem Op.work_ids {kind : String} {op : Op} {o o' : Open} {out : Option String}
    (is : op.work s kind o = .ok (o', out)) {t : Tab} (mem : t ∈ o'.tabs) :
    (∃ was ∈ o.tabs, was.id = t.id) ∨ op.mints o ∧ t.id = s.mint := by
  have altered {id : String} {f : Tab → Tab} {tabs : List Tab}
      (altered : alter id f o.tabs = some tabs) (keeps : ∀ t, (f t).id = t.id) (mem : t ∈ tabs) : ∃ was ∈ o.tabs, was.id = t.id := by
    obtain ⟨left, was, right, before, _, rfl⟩ := alter_some altered
    rw [before]
    obtain left_ | here := List.mem_append.mp mem
    · exact ⟨t, List.mem_append_left _ left_, rfl⟩
    · obtain rfl | after := List.mem_cons.mp here
      · exact ⟨was, List.mem_append_right left (.head _), (keeps was).symm⟩
      · exact ⟨t, List.mem_append_right left (.tail was after), rfl⟩
  cases op with
  | openRequested limit device url session after view request =>
      cases is
      change t ∈ (Tabs.openRequested s limit device url session after view request o).1.tabs at mem
      obtain ⟨tab, _, is⟩ | ⟨none_, is⟩ := openRequested_cases s limit device url session after view request o
      · rw [is] at mem
        exact .inl ⟨t, mem, rfl⟩
      · rw [is] at mem
        obtain rfl | old := (List.mem_insertIdx (beside_le after o)).mp ((limited_sublist ..).subset mem)
        · exact .inr ⟨by simp [Op.mints, none_], rfl⟩
        · exact .inl ⟨t, old, rfl⟩
  | adoptPinned device url =>
      cases is
      obtain old | new := List.mem_append.mp mem
      · exact .inl ⟨t, old, rfl⟩
      · obtain rfl := List.mem_singleton.mp new
        exact .inr ⟨rfl, rfl⟩
  | goWithView id device url title view =>
      have went := map_ok is
      unfold Tabs.goWithView at went
      split at went
      · rename_i tabs found
        cases went
        exact .inl (altered found (fun _ => rfl) mem)
      · cases went
  | pin id on =>
      obtain ⟨tab, there, _, _, after, before⟩ := pin_some (map_ok is)
      obtain rfl | rest := List.mem_cons.mp (after.mem_iff.mp mem)
      · exact .inl ⟨tab, there, rfl⟩
      · exact .inl ⟨t, before.mem_iff.mpr (.tail tab rest), rfl⟩
  | focus id =>
      have went := map_ok is
      unfold Tabs.focus at went
      split at went
      · rename_i tabs found
        cases went
        exact .inl (altered found (fun _ => rfl) mem)
      · cases went
  | close id =>
      obtain ⟨_, _, _, _, tabs⟩ := close_some (map_ok is)
      exact .inl ⟨t, (List.eraseIdx_sublist ..).subset (tabs ▸ mem), rfl⟩
  | saveAll want =>
      obtain ⟨was, there, row, _, same, rfl⟩ := (saveAll_replaced (map_ok is)).row mem
      exact .inl ⟨was, there, same⟩
  | reorder session ids => exact .inl ⟨t, (reorder_perm (map_ok is)).mem_iff.mp mem, rfl⟩

/-! ### Processes -/

structure Call where
  ticket : Nat
  kind : String
  op : Op

/-- Where a thread is in `change`: before the hold, with it, with the table it read, with the one to write, with a draft
that is cut, with the whole draft, and with its answer while it still has the hold. -/
inductive Phase where
  | idle
  | asked (c : Call)
  | holding (c : Call)
  | read (c : Call) (all : Table)
  | made (c : Call) (s : Stamp) (all : Table) (out : Option String)
  | cut (c : Call) (s : Stamp) (all : Table) (out : Option String)
  | drafted (c : Call) (s : Stamp) (all : Table) (out : Option String)
  | ending (c : Call) (answer : Except String (Option String))

def Phase.call : Phase → Option Call
  | .idle => none
  | .asked c | .holding c | .read c _ | .made c .. | .cut c .. | .drafted c .. | .ending c _ => some c

def Phase.holds : Phase → Bool
  | .idle | .asked _ => false
  | _ => true

/-- The table that the thread is about to put in place. -/
def Phase.plan : Phase → Option (Call × Stamp × Table × Option String)
  | .made c s all out | .cut c s all out | .drafted c s all out => some (c, s, all, out)
  | _ => none

/-- An operation that took place. -/
structure Entry where
  call : Call
  stamp : Stamp
  out : Option String

/-- A thread of a process. -/
abbrev Thread := Nat × Nat

/-- `draft pid` is the file named after the process; `none` for a file that is not there or cannot be read. `log` and
`answers` are what took place and what was answered so far. -/
structure World where
  file : Option Table
  draft : Nat → Option Table
  clock : Nat
  living : Nat → Bool
  counter : Nat → Nat
  died : Nat → Nat
  holder : Option Thread
  thread : Thread → Phase
  calls : Nat
  log : List Entry
  answers : List (Nat × Except String (Option String))

/-- What a reader makes of the file: nothing open if it is not there or cannot be read. -/
def World.stored (w : World) : Table := w.file.getD fun _ => none

def set {ι α : Type} [DecidableEq ι] (f : ι → α) (i : ι) (a : α) : ι → α := fun k => if k = i then a else f k

@[simp, grind =] theorem set_apply {ι α : Type} [DecidableEq ι] (f : ι → α) (i : ι) (a : α) (k : ι) :
    set f i a k = if k = i then a else f k := rfl

def World.at (w : World) (t : Thread) (phase : Phase) : World := { w with thread := set w.thread t phase }

/-- `fails` is the text of a failure of the system, if there is one. -/
inductive Event where
  | tick (ms : Nat)
  | spawn (pid : Nat)
  | kill (pid : Nat)
  | ask (t : Thread) (kind : String) (op : Op)
  | take (t : Thread) (fails : Option String)
  | read (t : Thread)
  | work (t : Thread) (now : Nat)
  | cut (t : Thread) (fails : Option String)
  | write (t : Thread) (fails : Option String)
  | rename (t : Thread) (fails : Option String)
  | leave (t : Thread)

/-- A call begins, or ends at once if its view is refused. -/
def World.ask (w : World) (t : Thread) (kind : String) (op : Op) : World :=
  match checkedView kind op.view with
  | .error e => { w with calls := w.calls + 1, answers := (w.calls, .error e) :: w.answers }
  | .ok _ => { w.at t (.asked ⟨w.calls, kind, op⟩) with calls := w.calls + 1 }

def World.take (w : World) (t : Thread) (fails : Option String) : World :=
  match w.thread t, fails with
  | .asked c, none => { w.at t (.holding c) with holder := some t }
  | .asked c, some e => { w.at t .idle with answers := (c.ticket, .error e) :: w.answers }
  | _, _ => w

def World.read (w : World) (t : Thread) : World :=
  match w.thread t with
  | .holding c => w.at t (.read c w.stored)
  | _ => w

/-- The handle is minted at the clock as it is, and `touched` set by a later look at it. -/
def World.stamp (w : World) (t : Thread) (now : Nat) : Stamp :=
  { ms := w.clock, pid := t.1, n := w.counter t.1, now }

/-- The clock went on, and the counter of the process if the operation mints. -/
def World.counted (w : World) (t : Thread) (now : Nat) (c : Call) (all : Table) : World :=
  { w with
    clock := now
    counter := if c.op.mints (all.of c.kind) then set w.counter t.1 (w.counter t.1 + 1) else w.counter }

def World.work (w : World) (t : Thread) (now : Nat) : World :=
  match w.thread t with
  | .read c all =>
      match change (w.stamp t now) c.kind c.op all with
      | .ok (all', out) => (w.counted t now c all).at t (.made c (w.stamp t now) all' out)
      | .error e => (w.counted t now c all).at t (.ending c (.error e))
  | _ => w

def World.cut (w : World) (t : Thread) (fails : Option String) : World :=
  match w.thread t, fails with
  | .made c s all out, none => { w.at t (.cut c s all out) with draft := set w.draft t.1 none }
  | .made c _ _ _, some e => w.at t (.ending c (.error e))
  | _, _ => w

def World.write (w : World) (t : Thread) (fails : Option String) : World :=
  match w.thread t, fails with
  | .cut c s all out, none => { w.at t (.drafted c s all out) with draft := set w.draft t.1 (some all) }
  | .cut c _ _ _, some e => w.at t (.ending c (.error e))
  | _, _ => w

def World.rename (w : World) (t : Thread) (fails : Option String) : World :=
  match w.thread t, fails with
  | .drafted c s _ out, none =>
      { w.at t (.ending c (.ok out)) with
        file := w.draft t.1
        draft := set w.draft t.1 none
        log := w.log ++ [⟨c, s, out⟩] }
  | .drafted c _ _ _, some e => { w.at t (.ending c (.error e)) with draft := set w.draft t.1 none }
  | _, _ => w

/-- The hold is given up and the call answers. -/
def World.leave (w : World) (t : Thread) : World :=
  match w.thread t with
  | .ending c answer => { w.at t .idle with holder := none, answers := (c.ticket, answer) :: w.answers }
  | _ => w

def World.kill (w : World) (pid : Nat) : World :=
  { w with
    living := set w.living pid false
    died := set w.died pid w.clock
    holder := if w.holder.any (·.1 = pid) then none else w.holder
    thread := fun t => if t.1 = pid then .idle else w.thread t }

def World.step (w : World) : Event → World
  | .tick ms => { w with clock := ms }
  | .spawn pid => { w with living := set w.living pid true, counter := set w.counter pid 0 }
  | .kill pid => w.kill pid
  | .ask t kind op => w.ask t kind op
  | .take t fails => w.take t fails
  | .read t => w.read t
  | .work t now => w.work t now
  | .cut t fails => w.cut t fails
  | .write t fails => w.write t fails
  | .rename t fails => w.rename t fails
  | .leave t => w.leave t

def World.May (w : World) : Event → Prop
  | .tick ms => w.clock ≤ ms
  | .spawn pid => w.living pid = false ∧ w.died pid < w.clock
  | .ask t _ _ => w.living t.1 = true ∧ w.thread t = .idle
  | .take _ none => w.holder = none
  | .work _ now => w.clock ≤ now
  | _ => True

/-- No process yet. -/
def World.start (file : Option Table) (clock : Nat) : World where
  file
  draft := fun _ => none
  clock
  living := fun _ => false
  counter := fun _ => 0
  died := fun _ => 0
  holder := none
  thread := fun _ => .idle
  calls := 0
  log := []
  answers := []

/-! ### New handles -/

/-- A handle that a process may still mint. -/
def World.MayMint (w : World) (s : Stamp) : Prop :=
  w.clock < s.ms ∨ w.clock = s.ms ∧ if w.living s.pid then w.counter s.pid ≤ s.n else w.died s.pid < s.ms

/-- No handle that a process may still mint is in the table. -/
def World.Unused (w : World) (all : Table) : Prop :=
  ∀ kind, ∀ t ∈ (all.of kind).tabs, ∀ s, w.MayMint s → t.id ≠ s.mint

@[simp] theorem at_thread (w : World) (t : Thread) (phase : Phase) : (w.at t phase).thread = set w.thread t phase := rfl

/-- What the handles depend on. -/
structure World.SameClocks (w w' : World) : Prop where
  clock : w'.clock = w.clock
  living : w'.living = w.living
  counter : w'.counter = w.counter
  died : w'.died = w.died

variable {w : World}

theorem World.SameClocks.mayMint {w' : World} (h : w.SameClocks w') : w'.MayMint s ↔ w.MayMint s := by
  unfold World.MayMint
  rw [h.clock, h.living, h.counter, h.died]

section

variable (w : World) (t : Thread)

theorem ask_clocks (kind : String) (op : Op) : w.SameClocks (w.ask t kind op) := by
  unfold World.ask
  split <;> exact ⟨rfl, rfl, rfl, rfl⟩

theorem take_clocks (fails : Option String) : w.SameClocks (w.take t fails) := by
  unfold World.take
  split <;> exact ⟨rfl, rfl, rfl, rfl⟩

theorem read_clocks : w.SameClocks (w.read t) := by
  unfold World.read
  split <;> exact ⟨rfl, rfl, rfl, rfl⟩

theorem cut_clocks (fails : Option String) : w.SameClocks (w.cut t fails) := by
  unfold World.cut
  split <;> exact ⟨rfl, rfl, rfl, rfl⟩

theorem write_clocks (fails : Option String) : w.SameClocks (w.write t fails) := by
  unfold World.write
  split <;> exact ⟨rfl, rfl, rfl, rfl⟩

theorem rename_clocks (fails : Option String) : w.SameClocks (w.rename t fails) := by
  unfold World.rename
  split <;> exact ⟨rfl, rfl, rfl, rfl⟩

theorem leave_clocks : w.SameClocks (w.leave t) := by
  unfold World.leave
  split <;> exact ⟨rfl, rfl, rfl, rfl⟩

end

/-- The clock goes on, and the counter of at most this process. -/
theorem work_clocks {w : World} {t : Thread} {now : Nat} :
    w.SameClocks (w.work t now) ∨ ∃ c all, w.thread t = .read c all ∧ (w.work t now).clock = now ∧
      (w.work t now).living = w.living ∧ (w.work t now).died = w.died ∧
      (w.work t now).counter =
        if c.op.mints (all.of c.kind) then set w.counter t.1 (w.counter t.1 + 1) else w.counter := by
  unfold World.work
  split
  · rename_i c all is
    refine .inr ⟨c, all, is, ?_⟩
    split <;> exact ⟨rfl, rfl, rfl, rfl⟩
  · exact .inl ⟨rfl, rfl, rfl, rfl⟩

/-- What may be minted later could be minted before. -/
theorem World.MayMint.before {e : Event} (may : w.May e) (h : (w.step e).MayMint s) : w.MayMint s := by
  cases e with
  | tick ms =>
      have le : w.clock ≤ ms := may
      change ms < s.ms ∨ ms = s.ms ∧ _ at h
      unfold World.MayMint
      by_cases same : w.clock = ms
      · exact same ▸ h
      · exact .inl (by omega)
  | spawn pid =>
      obtain ⟨dead, died⟩ := may
      obtain later | ⟨now, new⟩ := h
      · exact .inl later
      · refine .inr ⟨now, ?_⟩
        by_cases own : s.pid = pid
        · rw [own, dead]
          exact now ▸ died
        · simpa [World.step, own] using new
  | kill pid =>
      obtain later | ⟨now, new⟩ := h
      · exact .inl later
      · refine .inr ⟨now, ?_⟩
        have now : w.clock = s.ms := now
        by_cases own : s.pid = pid
        · simp [World.step, World.kill, own, now] at new
        · simpa [World.step, World.kill, own] using new
  | ask t kind op => exact (ask_clocks w t kind op).mayMint.mp h
  | take t fails => exact (take_clocks w t fails).mayMint.mp h
  | read t => exact (read_clocks w t).mayMint.mp h
  | work t now =>
      obtain same | ⟨c, all, _, clock, living, died, counter⟩ := @work_clocks w t now
      · exact same.mayMint.mp h
      · have le : w.clock ≤ now := may
        change (w.work t now).MayMint s at h
        unfold World.MayMint at h ⊢
        rw [clock, living, died, counter] at h
        by_cases same : w.clock = now
        · obtain later | ⟨here, new⟩ := h
          · exact .inl (by omega)
          · refine .inr ⟨by omega, ?_⟩
            split at new <;> rename_i alive
            · rw [if_pos alive]
              split at new
              · rw [set_apply] at new
                split at new
                · rename_i own
                  rw [own]
                  omega
                · exact new
              · exact new
            · rw [if_neg alive]
              exact new
        · exact .inl (by omega)
  | cut t fails => exact (cut_clocks w t fails).mayMint.mp h
  | write t fails => exact (write_clocks w t fails).mayMint.mp h
  | rename t fails => exact (rename_clocks w t fails).mayMint.mp h
  | leave t => exact (leave_clocks w t).mayMint.mp h

theorem World.Unused.later {all : Table} (h : w.Unused all) {e : Event} (may : w.May e) : (w.step e).Unused all :=
  fun kind t mem s later => h kind t mem s (later.before may)

end Khor.Tabs
