/-
Module: Khor.Lib.CausalLog
Purpose: Operation logs closed under causality. An operation is named by its writer and a counter and
  waits for the operations it depends on. A causal log holds an operation only after everything it
  depends on; `settle` moves waiting operations into a log for as long as one of them is ready. The
  central fact (`reach_le_of_accounted`) is that a settled log reaches every causal log whose
  operations were held or waiting, whatever order they came in and whether or not names collide.
Trusted boundary: none
Main exports: Op, reach, CausalLog, reach_le_of_accounted, upTo_version
-/
import Khor.Lib.VersionVector

namespace Khor

/-- An operation: its writer and counter name it, `deps` are the names it waits for, `body` is what
it does to the document. -/
structure Op (W β : Type) where
  writer : W
  counter : Nat
  deps : List (W × Nat)
  body : β
deriving DecidableEq

/-- The name of an operation. -/
def Op.id {W β : Type} (o : Op W β) : W × Nat := (o.writer, o.counter)

section Log

variable {W β : Type} [DecidableEq W]

/-- How many operations of `w` the log holds: the counter its next one must carry. -/
def reach (log : List (Op W β)) (w : W) : Nat :=
  log.countP fun o => decide (o.writer = w)

/-- The name of `o` is taken in the log. -/
def Held (log : List (Op W β)) (o : Op W β) : Prop :=
  o.counter < reach log o.writer

/-- `o` is its writer's next operation and everything it depends on is held. -/
def Ready (log : List (Op W β)) (o : Op W β) : Prop :=
  o.counter = reach log o.writer ∧ ∀ d ∈ o.deps, d.2 < reach log d.1

instance (log : List (Op W β)) (o : Op W β) : Decidable (Held log o) :=
  inferInstanceAs (Decidable (_ < _))

instance (log : List (Op W β)) (o : Op W β) : Decidable (Ready log o) :=
  inferInstanceAs (Decidable (_ ∧ _))

/-- A log in which every operation was ready when it was added. -/
inductive CausalLog : List (Op W β) → Prop where
  | nil : CausalLog []
  | snoc {log : List (Op W β)} {o : Op W β} (before : CausalLog log) (ready : Ready log o) :
      CausalLog (log ++ [o])

@[simp] theorem reach_nil (w : W) : reach ([] : List (Op W β)) w = 0 := rfl

theorem reach_append (log more : List (Op W β)) (w : W) : reach (log ++ more) w = reach log w + reach more w :=
  List.countP_append

theorem reach_singleton (o : Op W β) (w : W) : reach [o] w = if o.writer = w then 1 else 0 := by
  by_cases h : o.writer = w <;> simp [reach, h]

theorem reach_snoc_self (log : List (Op W β)) (o : Op W β) :
    reach (log ++ [o]) o.writer = reach log o.writer + 1 := by
  simp [reach_append, reach_singleton]

theorem reach_snoc_ne (log : List (Op W β)) {o : Op W β} {w : W} (h : o.writer ≠ w) :
    reach (log ++ [o]) w = reach log w := by
  simp [reach_append, reach_singleton, h]

theorem reach_le_append (log more : List (Op W β)) (w : W) : reach log w ≤ reach (log ++ more) w := by
  rw [reach_append]
  exact Nat.le_add_right _ _

theorem Held.append {log : List (Op W β)} {o : Op W β} (h : Held log o) (more : List (Op W β)) :
    Held (log ++ more) o :=
  Nat.lt_of_lt_of_le h (reach_le_append log more o.writer)

namespace CausalLog

variable {log : List (Op W β)}

/-- Every operation in a causal log is held by it: counters stay below the reach. -/
theorem held (h : CausalLog log) : ∀ {o}, o ∈ log → Held log o := by
  induction h with
  | nil => intro o ho; cases ho
  | @snoc log new before ready ih =>
      intro o ho
      rcases List.mem_append.mp ho with old | last
      · exact (ih old).append [new]
      · rw [List.mem_singleton] at last
        subst last
        rw [Held, reach_snoc_self, ready.1]
        exact Nat.lt_succ_self _

/-- A causal log has no gaps: each counter below the reach is the name of an operation in it. -/
theorem exists_of_lt (h : CausalLog log) : ∀ {w n}, n < reach log w → ∃ o ∈ log, o.writer = w ∧ o.counter = n := by
  induction h with
  | nil => intro w n hn; simp at hn
  | @snoc log new before ready ih =>
      intro w n hn
      by_cases hw : new.writer = w
      · subst hw
        rw [reach_snoc_self] at hn
        by_cases hlast : n < reach log new.writer
        · obtain ⟨o, ho, hid⟩ := ih hlast
          exact ⟨o, List.mem_append_left _ ho, hid⟩
        · refine ⟨new, List.mem_append_right _ (List.mem_singleton_self _), rfl, ?_⟩
          rw [ready.1]
          omega
      · rw [reach_snoc_ne log hw] at hn
        obtain ⟨o, ho, hid⟩ := ih hn
        exact ⟨o, List.mem_append_left _ ho, hid⟩

/-- In a causal log a name belongs to one operation. -/
theorem unique (h : CausalLog log) : ∀ {o o'}, o ∈ log → o' ∈ log → o.id = o'.id → o = o' := by
  induction h with
  | nil => intro o o' ho; cases ho
  | @snoc log new before ready ih =>
      -- the added operation's counter is at the reach, so no earlier one can share its name
      have fresh : ∀ {o}, o ∈ log → o.id ≠ new.id := by
        intro o ho same
        obtain ⟨hw, hc⟩ := Prod.mk.injEq .. ▸ same
        have lt : o.counter < reach log o.writer := before.held ho
        rw [hc, hw, ready.1] at lt
        exact Nat.lt_irrefl _ lt
      intro o o' ho ho' same
      rcases List.mem_append.mp ho with old | last <;>
        rcases List.mem_append.mp ho' with old' | last'
      · exact ih old old' same
      · rw [List.mem_singleton] at last'
        exact absurd (last' ▸ same) (fresh old)
      · rw [List.mem_singleton] at last
        exact absurd (last ▸ same.symm) (fresh old')
      · rw [List.mem_singleton] at last last'
        rw [last, last']

end CausalLog

/-- A log reaches everything a causal log reaches, when each operation of that log is either held or
waits without being ready. Nothing here asks that names be unique. -/
theorem reach_le_of_accounted {log rest other : List (Op W β)} (hother : CausalLog other)
    (settled : ∀ o ∈ rest, ¬ Ready log o) (accounted : ∀ o ∈ other, Held log o ∨ o ∈ rest) (w : W) :
    reach other w ≤ reach log w := by
  induction hother generalizing w with
  | nil => simp
  | @snoc before o hbefore ready ih =>
      have ih' := ih fun p hp => accounted p (List.mem_append_left _ hp)
      by_cases hw : o.writer = w
      · subst hw
        rw [reach_snoc_self, ← ready.1]
        rcases accounted o (List.mem_append_right _ (List.mem_singleton_self _)) with hheld | hrest
        · exact hheld
        · -- its dependencies are reached by induction, so only its counter can keep it from being ready
          have deps : ∀ d ∈ o.deps, d.2 < reach log d.1 :=
            fun d hd => Nat.lt_of_lt_of_le (ready.2 d hd) (ih' d.1)
          have notNext : o.counter ≠ reach log o.writer :=
            fun next => settled o hrest ⟨next, deps⟩
          have le : o.counter ≤ reach log o.writer := ready.1 ▸ ih' o.writer
          omega
      · rw [reach_snoc_ne before hw]
        exact ih' w

end Log

/-! ### Taking operations in -/

section Settle

variable {W β : Type} [DecidableEq W] [DecidableEq β]

/-- Move waiting operations into the log while one of them is ready. -/
def settle : Nat → List (Op W β) → List (Op W β) → List (Op W β) × List (Op W β)
  | 0, log, wait => (log, wait)
  | fuel + 1, log, wait =>
      match wait.find? (fun o => decide (Ready log o)) with
      | none => (log, wait)
      | some o => settle fuel (log ++ [o]) (wait.erase o)

/-- What settling does, in one statement: the log grows by waiting operations only, stays causal, and
no waiting operation gets lost. -/
theorem settle_spec (fuel : Nat) {log : List (Op W β)} (wait : List (Op W β)) (hlog : CausalLog log) :
    CausalLog (settle fuel log wait).1 ∧
      (∃ more, (settle fuel log wait).1 = log ++ more ∧ ∀ o ∈ more, o ∈ wait) ∧
      (∀ o ∈ (settle fuel log wait).2, o ∈ wait) ∧
      (∀ o ∈ wait, o ∈ (settle fuel log wait).1 ∨ o ∈ (settle fuel log wait).2) := by
  induction fuel generalizing log wait with
  | zero => exact ⟨hlog, ⟨[], by simp [settle]⟩, fun _ h => h, fun _ h => Or.inr h⟩
  | succ fuel ih =>
      rw [settle]
      cases hfind : wait.find? (fun o => decide (Ready log o)) with
      | none => exact ⟨hlog, ⟨[], by simp⟩, fun _ h => h, fun _ h => Or.inr h⟩
      | some o =>
          have ready : Ready log o := by simpa using List.find?_some hfind
          have hmem : o ∈ wait := List.mem_of_find?_eq_some hfind
          obtain ⟨causal, ⟨more, hmore, hfrom⟩, hrest, hall⟩ :=
            ih (wait.erase o) (hlog.snoc ready)
          refine ⟨causal, ⟨o :: more, by simp [hmore], ?_⟩, ?_, ?_⟩
          · intro p hp
            rcases List.mem_cons.mp hp with rfl | hp
            · exact hmem
            · exact List.mem_of_mem_erase (hfrom p hp)
          · exact fun p hp => List.mem_of_mem_erase (hrest p hp)
          · intro p hp
            by_cases hpo : p = o
            · subst hpo
              exact Or.inl (by simp [hmore])
            · exact hall p ((List.mem_erase_of_ne hpo).mpr hp)

/-- With enough fuel nothing ready is left waiting. -/
theorem settle_settled {fuel : Nat} {log wait : List (Op W β)} (enough : wait.length ≤ fuel) :
    ∀ o ∈ (settle fuel log wait).2, ¬ Ready (settle fuel log wait).1 o := by
  induction fuel generalizing log wait with
  | zero =>
      have : wait = [] := List.length_eq_zero_iff.mp (Nat.le_zero.mp enough)
      subst this
      intro o ho
      cases ho
  | succ fuel ih =>
      rw [settle]
      cases hfind : wait.find? (fun o => decide (Ready log o)) with
      | none =>
          intro o ho
          simpa using List.find?_eq_none.mp hfind o ho
      | some o =>
          have hmem : o ∈ wait := List.mem_of_find?_eq_some hfind
          apply ih
          have := List.length_erase_of_mem hmem
          omega

/-- Take `ops` into a log beside the operations already parked: the new log, and what is still
parked. What is held already is dropped rather than parked. -/
def takeIn (log parked ops : List (Op W β)) : List (Op W β) × List (Op W β) :=
  let settled := settle (parked ++ ops).length log (parked ++ ops)
  (settled.1, settled.2.filter fun o => decide (¬ Held settled.1 o))

section TakeIn

variable {log parked ops : List (Op W β)}

theorem takeIn_causal (hlog : CausalLog log) : CausalLog (takeIn log parked ops).1 :=
  (settle_spec _ _ hlog).1

/-- The log only grows, and only by operations that were parked or taken in. -/
theorem takeIn_grows (parked ops : List (Op W β)) (hlog : CausalLog log) :
    ∃ more, (takeIn log parked ops).1 = log ++ more ∧ ∀ o ∈ more, o ∈ parked ∨ o ∈ ops := by
  obtain ⟨more, hmore, hfrom⟩ := (settle_spec (parked ++ ops).length (parked ++ ops) hlog).2.1
  exact ⟨more, hmore, fun o ho => List.mem_append.mp (hfrom o ho)⟩

variable {o : Op W β}

theorem subset_takeIn (hlog : CausalLog log) (ho : o ∈ log) : o ∈ (takeIn log parked ops).1 := by
  obtain ⟨more, hmore, _⟩ := takeIn_grows parked ops hlog
  rw [hmore]
  exact List.mem_append_left _ ho

theorem mem_of_mem_takeIn (hlog : CausalLog log) (ho : o ∈ (takeIn log parked ops).1) :
    o ∈ log ∨ o ∈ parked ∨ o ∈ ops := by
  obtain ⟨more, hmore, hfrom⟩ := takeIn_grows parked ops hlog
  rw [hmore] at ho
  rcases List.mem_append.mp ho with old | new
  · exact Or.inl old
  · exact Or.inr (hfrom o new)

theorem reach_le_takeIn (hlog : CausalLog log) (w : W) : reach log w ≤ reach (takeIn log parked ops).1 w := by
  obtain ⟨more, hmore, _⟩ := takeIn_grows parked ops hlog
  rw [hmore]
  exact reach_le_append log more w

/-- What is parked afterwards was parked before or has just come in. -/
theorem mem_of_parked (hlog : CausalLog log) (ho : o ∈ (takeIn log parked ops).2) : o ∈ parked ∨ o ∈ ops := by
  have hrest := (List.mem_filter.mp ho).1
  exact List.mem_append.mp ((settle_spec _ _ hlog).2.2.1 o hrest)

/-- What is parked afterwards is not held. -/
theorem not_held_of_parked (ho : o ∈ (takeIn log parked ops).2) : ¬ Held (takeIn log parked ops).1 o :=
  of_decide_eq_true (List.mem_filter.mp ho).2

/-- Everything that was parked or came in is held or parked afterwards. -/
theorem held_or_parked (hlog : CausalLog log) (ho : o ∈ parked ∨ o ∈ ops) :
    Held (takeIn log parked ops).1 o ∨ o ∈ (takeIn log parked ops).2 := by
  by_cases hheld : Held (takeIn log parked ops).1 o
  · exact Or.inl hheld
  · rcases (settle_spec _ _ hlog).2.2.2 o (List.mem_append.mpr ho) with hin | hrest
    · exact absurd ((takeIn_causal hlog).held hin) hheld
    · exact Or.inr (List.mem_filter.mpr ⟨hrest, decide_eq_true hheld⟩)

/-- Taking in reaches every causal log whose operations were held, parked or have just come in. -/
theorem takeIn_reaches (hlog : CausalLog log) {other : List (Op W β)} (hother : CausalLog other)
    (accounted : ∀ o ∈ other, Held log o ∨ o ∈ parked ∨ o ∈ ops) (w : W) :
    reach other w ≤ reach (takeIn log parked ops).1 w := by
  have settled : ∀ o ∈ (settle (parked ++ ops).length log (parked ++ ops)).2,
      ¬ Ready (settle (parked ++ ops).length log (parked ++ ops)).1 o :=
    settle_settled (Nat.le_refl _)
  refine reach_le_of_accounted hother settled (fun o ho => ?_) w
  rcases accounted o ho with hheld | hwait
  · exact Or.inl (Nat.lt_of_lt_of_le hheld (reach_le_takeIn hlog o.writer))
  · rcases (settle_spec _ _ hlog).2.2.2 o (List.mem_append.mpr hwait) with hin | hrest
    · exact Or.inl ((takeIn_causal hlog).held hin)
    · exact Or.inr hrest

/-- Nothing left parked is ready. -/
theorem takeIn_settled (ho : o ∈ (takeIn log parked ops).2) : ¬ Ready (takeIn log parked ops).1 o :=
  settle_settled (Nat.le_refl _) o (List.mem_filter.mp ho).1

/-- If nothing waiting is ready, nothing moves. -/
theorem takeIn_of_not_ready (blocked : ∀ o, o ∈ parked ∨ o ∈ ops → ¬ Ready log o) :
    (takeIn log parked ops).1 = log := by
  have hfind : (parked ++ ops).find? (fun o => decide (Ready log o)) = none := by
    rw [List.find?_eq_none]
    intro o ho
    simpa using blocked o (List.mem_append.mp ho)
  cases hlen : (parked ++ ops).length with
  | zero => simp [takeIn, hlen, settle]
  | succ n => simp [takeIn, hlen, settle, hfind]

/-- If something waiting is ready, the log grows. -/
theorem takeIn_of_ready (hlog : CausalLog log) (ho : o ∈ parked ∨ o ∈ ops) (ready : Ready log o) :
    reach log o.writer < reach (takeIn log parked ops).1 o.writer := by
  have one : reach (log ++ [o]) o.writer ≤ reach (takeIn log parked ops).1 o.writer := by
    apply takeIn_reaches hlog (hlog.snoc ready)
    intro p hp
    rcases List.mem_append.mp hp with old | last
    · exact Or.inl (hlog.held old)
    · rw [List.mem_singleton] at last
      exact Or.inr (last ▸ ho)
  rw [reach_snoc_self] at one
  omega

end TakeIn

end Settle

/-! ### Versions and what lies beyond them -/

section Version

variable {W β : Type} [DecidableEq W]

/-- The version of a log, entered operation by operation. -/
def version (log : List (Op W β)) : VersionVector W :=
  log.foldl (fun v o => v.insert o.writer (o.counter + 1 : Int)) ∅

/-- The operations of a log that a version does not cover. -/
def since (log : List (Op W β)) (v : VersionVector W) : List (Op W β) :=
  log.filter fun o => decide (¬ o.counter < v.upTo o.writer)

variable {log : List (Op W β)}

@[simp] theorem mem_since {v : VersionVector W} {o : Op W β} :
    o ∈ since log v ↔ o ∈ log ∧ v.upTo o.writer ≤ o.counter := by
  simp [since]

/-- A causal log's version has one entry per writer: that writer's reach. -/
theorem get_version (h : CausalLog log) (w : W) : (version log).get w = (reach log w : Int) := by
  induction h with
  | nil => simp [version]
  | @snoc log o before ready ih =>
      have hsnoc : version (log ++ [o]) = (version log).insert o.writer (o.counter + 1 : Int) := by
        simp [version, List.foldl_append]
      by_cases hw : o.writer = w
      · subst hw
        rw [hsnoc, VersionVector.get_insert_self, reach_snoc_self, ready.1]
        push_cast
        rfl
      · rw [hsnoc, VersionVector.get_insert_ne _ (Ne.symm hw), reach_snoc_ne log hw, ih]

theorem upTo_version (h : CausalLog log) (w : W) : (version log).upTo w = reach log w := by
  simp [VersionVector.upTo, get_version h]

end Version

/-! ### One name, one operation -/

section Coherent

variable {W β : Type}

/-- No two operations of the set share a name. -/
def Coherent (s : Set (Op W β)) : Prop :=
  ∀ o ∈ s, ∀ o' ∈ s, o.id = o'.id → o = o'

theorem Coherent.mono {s t : Set (Op W β)} (h : Coherent t) (hst : s ⊆ t) : Coherent s :=
  fun o ho o' ho' => h o (hst ho) o' (hst ho')

variable [DecidableEq W]

variable {log : List (Op W β)}

/-- Where names are unique, an operation whose name is held is itself in the log. -/
theorem mem_of_held {s : Set (Op W β)} (coherent : Coherent s) (hlog : CausalLog log) (sub : ∀ o ∈ log, o ∈ s)
    {o : Op W β} (ho : o ∈ s) (held : Held log o) : o ∈ log := by
  obtain ⟨o', ho', hw, hc⟩ := hlog.exists_of_lt held
  have : o' = o := coherent o' (sub o' ho') o ho (by simp [Op.id, hw, hc])
  exact this ▸ ho'

/-- Where names are unique, a log that reaches as far as another holds all of its operations. -/
theorem subset_of_reach_le {s : Set (Op W β)} (coherent : Coherent s) {other : List (Op W β)} (hlog : CausalLog log)
    (sub : ∀ o ∈ log, o ∈ s) (hother : CausalLog other) (subOther : ∀ o ∈ other, o ∈ s)
    (le : ∀ w, reach other w ≤ reach log w) : ∀ o ∈ other, o ∈ log := by
  intro o ho
  exact mem_of_held coherent hlog sub (subOther o ho)
    (Nat.lt_of_lt_of_le (hother.held ho) (le o.writer))

/-- Where names are unique, a log contained in another reaches no further. -/
theorem reach_le_of_subset {other : List (Op W β)} (hlog : CausalLog log) (hother : CausalLog other)
    (sub : ∀ o ∈ other, o ∈ log) (w : W) : reach other w ≤ reach log w := by
  rcases Nat.eq_zero_or_pos (reach other w) with zero | pos
  · omega
  · obtain ⟨o, ho, hw, hc⟩ := hother.exists_of_lt (Nat.sub_lt pos Nat.one_pos)
    have := hlog.held (sub o ho)
    rw [Held, hw, hc] at this
    omega

end Coherent

end Khor
