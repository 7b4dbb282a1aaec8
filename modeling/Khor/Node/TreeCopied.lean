/-
Module: Khor.Node.TreeCopied
Purpose: What a copy of a directory does to the names of the receive directory: it makes its part where nothing stands,
  works in it alone, and leaves nothing of its own where it fails.
Trusted boundary: as for TreeCopy
Main exports: Grown, Landed, landing_run, Owned, Clean
-/
import Khor.Node.TreeScanned

namespace Khor.Tree

/-! ### Names in the receive directory -/

@[simp] theorem names_grow (r others : Receive) (n : Name) : (r.grow others).names n = (r.names n).or (others.names n) := by
  cases r <;> cases others <;> simp [Receive.grow, Receive.names]

theorem names_set (r : Receive) (there : r ≠ none) (n m : Name) (thing : Option Thing) :
    (r.set n thing).names m = if m = n then thing else r.names m := by
  cases r with
  | none => exact absurd rfl there
  | some names => simp [Receive.set, Receive.names]

theorem there_of_names {r : Receive} {n : Name} {thing : Thing} (is : r.names n = some thing) : r ≠ none := by
  rintro rfl
  cases is

/-- Up to its own names, what stood there stands there as it was, and what came is of other programs. -/
structure Grown (w : World) (own : Name → Prop) (s s' : State) : Prop where
  later : s.now ≤ s'.now
  kept : ∀ n thing, ¬ own n → s.dir.names n = some thing → s'.dir.names n = some thing
  theirs : ∀ n thing, ¬ own n → s'.dir.names n = some thing →
    s.dir.names n = some thing ∨ ∃ t, s.now ≤ t ∧ t < s'.now ∧ (w t).others.names n = some thing
  /-- What others created meanwhile is not lost. -/
  came : ∀ n t, ¬ own n → s.now ≤ t → t < s'.now → (w t).others.names n ≠ none → s'.dir.names n ≠ none

variable {w : World} {own : Name → Prop}

theorem Grown.refl (s : State) : Grown w own s s where
  later := Nat.le_refl _
  kept _ _ _ is := is
  theirs _ _ _ is := .inl is
  came _ _ _ after before := absurd before (Nat.not_lt.mpr after)

variable {s s' : State} {at_ : Landing} {part : Name} {e : Refusal}

theorem Grown.stands (grown : Grown w own s s') {n : Name} (other : ¬ own n) (is : s.dir.names n ≠ none) :
    s'.dir.names n ≠ none := by
  obtain ⟨thing, is⟩ := Option.ne_none_iff_exists'.mp is
  rw [grown.kept n thing other is]
  exact Option.some_ne_none thing

theorem Grown.trans {a b c : State} (ab : Grown w own a b) (bc : Grown w own b c) : Grown w own a c where
  later := Nat.le_trans ab.later bc.later
  kept n thing other is := bc.kept n thing other (ab.kept n thing other is)
  theirs n thing other is := by
    rcases bc.theirs n thing other is with is | ⟨t, after, before, created⟩
    · rcases ab.theirs n thing other is with is | ⟨t, after, before, created⟩
      · exact .inl is
      · exact .inr ⟨t, after, Nat.lt_of_lt_of_le before bc.later, created⟩
    · exact .inr ⟨t, Nat.le_trans ab.later after, before, created⟩
  came n t other after before created := by
    rcases Nat.lt_or_ge t b.now with early | late
    · exact bc.stands other (ab.came n t other after early created)
    · exact bc.came n t other late before created

/-- What keeps more names alone keeps fewer. -/
theorem Grown.mono {own' : Name → Prop} {s s' : State} (grown : Grown w own s s') (more : ∀ n, own n → own' n) :
    Grown w own' s s' where
  later := grown.later
  kept n thing other is := grown.kept n thing (fun mine => other (more n mine)) is
  theirs n thing other is := grown.theirs n thing (fun mine => other (more n mine)) is
  came n _ other := grown.came n _ fun mine => other (more n mine)

/-- A step that leaves the names alone. -/
theorem Grown.of_same (now : s.now = s'.now) (same : ∀ n, ¬ own n → s'.dir.names n = s.dir.names n) :
    Grown w own s s' where
  later := Nat.le_of_eq now
  kept n _ other is := same n other ▸ is
  theirs n _ other is := .inl (same n other ▸ is)
  came _ _ _ after before := absurd (Nat.lt_of_lt_of_eq before now.symm) (Nat.not_lt.mpr after)

theorem Grown.tick (s : State) : Grown w own s (tick w s).2 where
  later := Nat.le_succ _
  kept n _ _ is := by simp [Tree.tick, is]
  theirs n _ _ is := by
    simp only [Tree.tick, names_grow] at is
    cases stood : s.dir.names n with
    | some thing' =>
        rw [stood] at is
        exact .inl is
    | none =>
        rw [stood, Option.none_or] at is
        exact .inr ⟨s.now, Nat.le_refl _, Nat.lt_succ_self _, is⟩
  came n t _ after before created := by
    obtain rfl : t = s.now := Nat.le_antisymm (Nat.le_of_lt_succ before) after
    simp only [Tree.tick, names_grow]
    cases s.dir.names n with
    | none => rwa [Option.none_or]
    | some thing => exact Option.some_ne_none thing

/-! ### What does not touch the names -/

theorem tick_moves : Work.Moves (Grown w own) (tick w) := Grown.tick

theorem call_moves : Work.Moves (Grown w own) (call w) :=
  .bind Grown.trans tick_moves fun m => by
    split
    · exact .fail Grown.refl _
    · exact .pure Grown.refl _

theorem ask_moves {α : Type} (answer : Source → Option α) : Work.Moves (Grown w own) (ask w answer) :=
  .bind Grown.trans call_moves fun m => by
    cases answer m.source with
    | some a => exact .pure Grown.refl a
    | none => exact .fail Grown.refl _

theorem isStopped_moves : Work.Moves (Grown w own) (isStopped w) :=
  .bind Grown.trans tick_moves fun _ => .pure Grown.refl _

theorem visit_moves (dir : List Name) (k : Walk) (name : OsName) : Work.Moves (Grown w own) (visit w dir k name) := by
  cases name with
  | raw bytes => exact .bind Grown.trans call_moves fun _ => .fail Grown.refl _
  | text name =>
      refine .bind Grown.trans call_moves fun _ => .bind Grown.trans (.lift Grown.refl _) fun _ => ?_
      dsimp only
      split
      · exact .fail Grown.refl _
      refine .bind Grown.trans (ask_moves _) fun found => ?_
      split
      · exact .fail Grown.refl _
      split
      · exact .fail Grown.refl _
      · exact .pure Grown.refl _

theorem visitAll_moves (dir : List Name) :
    ∀ (k : Walk) (rest : List OsName), Work.Moves (Grown w own) (visitAll w dir k rest)
  | _, [] => .pure Grown.refl _
  | k, name :: _ => .bind Grown.trans (visit_moves dir k name) fun _ => visitAll_moves dir _ _

theorem walk_moves : ∀ (fuel : Nat) (k : Walk), Work.Moves (Grown w own) (walk w fuel k)
  | fuel, ⟨[], _, _, _⟩ => by
      rw [walk]
      exact .pure Grown.refl _
  | 0, ⟨_ :: _, _, _, _⟩ => by
      rw [walk]
      exact .fail Grown.refl _
  | fuel + 1, ⟨dir :: todo, _, _, _⟩ => by
      rw [walk]
      exact .bind Grown.trans (ask_moves _) fun _ => .bind Grown.trans (visitAll_moves dir _ _) fun k => walk_moves fuel k

theorem scan_moves (path : Spelling) : Work.Moves (Grown w own) (scan w path) := by
  unfold scan
  split
  · exact .fail Grown.refl _
  refine .bind Grown.trans (ask_moves _) fun root => .bind Grown.trans tick_moves fun m => ?_
  split
  · exact .pure Grown.refl _
  split
  · exact .fail Grown.refl _
  · exact .bind Grown.trans (walk_moves _ _) fun entries => .bind Grown.trans (.lift Grown.refl _) fun _ =>
      .pure Grown.refl _

theorem taken_moves (name : Name) : Work.Moves (Grown w own) (taken w name) :=
  .bind Grown.trans tick_moves fun _ s => Grown.refl s

theorem makeReceive_moves : Work.Moves (Grown w own) (makeReceive w) :=
  .bind Grown.trans call_moves fun _ s => .of_same rfl fun n _ => by
    cases is : s.dir <;> simp [Receive.names]

/-! ### A landing -/

theorem call_ok {m : Moment} (ran : call w s = (.ok m, s')) : m = w s.now ∧ s' = (tick w s).2 := by
  obtain ⟨m', s₁, ticked, is⟩ := Work.bind_ok.mp ran
  cases ticked
  split at is
  · cases is
  · cases is
    exact ⟨rfl, rfl⟩

def nobody (_ : Name) : Prop := False

/-- A part was made where nothing stood. -/
structure Landed (w : World) (s s' : State) (at_ : Landing) : Prop where
  before : ∃ s₀, Grown w nobody s s₀ ∧ s₀.now = s'.now ∧ s₀.dir.names at_.part = none ∧
    ∀ n, n ≠ at_.part → s'.dir.names n = s₀.dir.names n
  made : s'.dir.names at_.part = some empty
  parts : at_.part = partOf at_.dest

theorem Landed.after {s₁ : State} (grown : Grown w nobody s s₁) (landed : Landed w s₁ s' at_) :
    Landed w s s' at_ := by
  obtain ⟨⟨s₀, grown', rest⟩, made, parts⟩ := landed
  exact ⟨⟨s₀, grown.trans grown', rest⟩, made, parts⟩

/-- A directory is made, or the names stay. -/
theorem makePart_run {r : Except Refusal Bool} (ran : makePart w part s = (r, s')) :
    (r = .ok true ∧ (tick w s).2.dir.names part = none ∧ s'.now = (tick w s).2.now ∧
      s'.dir.names part = some empty ∧ ∀ n, n ≠ part → s'.dir.names n = (tick w s).2.dir.names n) ∨
    (r ≠ .ok true ∧ Grown w nobody s s') := by
  match r with
  | .error e =>
      refine .inr ⟨(nomatch ·), ?_⟩
      rcases Work.bind_error.mp ran with is | ⟨m, s₁, called, is⟩
      · exact call_moves.of_run is
      · obtain ⟨-, rfl⟩ := call_ok called
        split at is
        · cases is
          exact Grown.tick s
        · split at is <;> cases is
  | .ok made =>
      obtain ⟨m, s₁, called, is⟩ := Work.bind_ok.mp ran
      obtain ⟨-, rfl⟩ := call_ok called
      split at is
      · cases is
      rename_i there
      split at is
      · cases is
        exact .inr ⟨(nomatch ·), Grown.tick s⟩
      · rename_i free
        cases is
        refine .inl ⟨rfl, Option.not_isSome_iff_eq_none.mp free, rfl, ?_, fun n other => ?_⟩
        · rw [names_set _ there, if_pos rfl]
        · rw [names_set _ there, if_neg other]

theorem seek_run (name : Name) : ∀ (left n : Nat) {s s' : State} {r : Except Refusal Landing},
    seek w name left n s = (r, s') → (∃ at_, r = .ok at_ ∧ Landed w s s' at_) ∨ ((∃ e, r = .error e) ∧ Grown w nobody s s')
  | 0, n, s, s', r, ran => by
      cases ran
      exact .inr ⟨⟨_, rfl⟩, Grown.refl s⟩
  | left + 1, n, s, s', r, ran => by
      -- a look at the name, then either the next name or a part of this one
      obtain ⟨there, looked⟩ : ∃ there, taken w (candidate name n) s = (.ok there, (tick w s).2) := ⟨_, rfl⟩
      have grown : Grown w nobody s (tick w s).2 := Grown.tick s
      rw [seek] at ran
      rw [Work.bind_run looked] at ran
      have next : ∀ {s₁}, Grown w nobody s s₁ → seek w name left (n + 1) s₁ = (r, s') →
          (∃ at_, r = .ok at_ ∧ Landed w s s' at_) ∨ ((∃ e, r = .error e) ∧ Grown w nobody s s') := by
        intro s₁ grown ran
        rcases seek_run name left (n + 1) ran with ⟨at_, is, landed⟩ | ⟨failed, grown'⟩
        · exact .inl ⟨at_, is, landed.after grown⟩
        · exact .inr ⟨failed, grown.trans grown'⟩
      split at ran
      · exact next grown ran
      match made : makePart w (partOf (candidate name n)) (tick w s).2 with
      | (.error e, s₁) =>
          have is : (r, s') = (.error e, s₁) := by
            rw [← ran]
            exact Work.bind_error.mpr (.inl made)
          cases is
          rcases makePart_run made with ⟨is, -⟩ | ⟨-, grown'⟩
          · cases is
          · exact .inr ⟨⟨e, rfl⟩, grown.trans grown'⟩
      | (.ok false, s₁) =>
          rw [Work.bind_run made] at ran
          rcases makePart_run made with ⟨is, -⟩ | ⟨-, grown'⟩
          · cases is
          · exact next (grown.trans grown') ran
      | (.ok true, s₁) =>
          rw [Work.bind_run made] at ran
          rcases makePart_run made with ⟨-, free, now, stands, others⟩ | ⟨other, -⟩
          · cases ran
            exact .inl ⟨_, rfl, ⟨⟨_, grown.trans (Grown.tick _), now.symm, free, others⟩, stands, rfl⟩⟩
          · exact absurd rfl other

theorem landing_run (name : Name) {r : Except Refusal Landing} (ran : landing w name s = (r, s')) :
    (∃ at_, r = .ok at_ ∧ Landed w s s' at_) ∨ ((∃ e, r = .error e) ∧ Grown w nobody s s') := by
  unfold landing at ran
  match checked : relative name with
  | .error e =>
      have is : (r, s') = (.error e, s) := by
        rw [← ran]
        exact Work.bind_error.mpr (.inl (by rw [checked]; rfl))
      cases is
      exact .inr ⟨⟨e, rfl⟩, Grown.refl s⟩
  | .ok names =>
      rw [Work.bind_run (Work.lift_ok.mpr ⟨checked, rfl⟩)] at ran
      split at ran
      · cases ran
        exact .inr ⟨⟨_, rfl⟩, Grown.refl s⟩
      match made : makeReceive w s with
      | (.error e, s₁) =>
          have is : (r, s') = (.error e, s₁) := by
            rw [← ran]
            exact Work.bind_error.mpr (.inl made)
          cases is
          exact .inr ⟨⟨e, rfl⟩, makeReceive_moves.of_run made⟩
      | (.ok _, s₁) =>
          rw [Work.bind_run made] at ran
          have grown : Grown w nobody s s₁ := makeReceive_moves.of_run made
          rcases seek_run name 9999 1 ran with ⟨at_, is, landed⟩ | ⟨failed, grown'⟩
          · exact .inl ⟨at_, is, landed.after grown⟩
          · exact .inr ⟨failed, grown.trans grown'⟩

/-! ### A copy that fails -/

/-- While a part stands, only what stands under its name changes. -/
structure Owned (w : World) (part : Name) (s s' : State) : Prop where
  grown : Grown w (· = part) s s'
  stands : s.dir.names part ≠ none → s'.dir.names part ≠ none

theorem Owned.refl (s : State) : Owned w part s s := ⟨Grown.refl s, id⟩

theorem Owned.trans {part : Name} {a b c : State} (ab : Owned w part a b) (bc : Owned w part b c) : Owned w part a c :=
  ⟨ab.grown.trans bc.grown, fun is => bc.stands (ab.stands is)⟩

theorem Grown.owned (grown : Grown w nobody s s') : Owned w part s s' where
  grown := grown.mono fun _ is => is.elim
  stands := grown.stands id

/-- A part that is written anew. -/
theorem Owned.set (there : s.dir ≠ none) (thing : Thing) :
    Owned w part s { s with dir := s.dir.set part (some thing) } where
  grown := .of_same rfl fun n other => by
    rw [names_set _ there, if_neg other]
  stands _ := by
    rw [names_set _ there, if_pos rfl]
    exact Option.some_ne_none thing

theorem makeIn_moves (path : List Name) (item : Moment → Item) :
    Work.Moves (Owned w part) (makeIn w part path item) :=
  .bind Owned.trans (call_moves.mono Grown.owned) fun m s => by
    cases is : s.dir.names part with
    | none => exact Owned.refl s
    | some thing =>
        dsimp only
        split
        · exact Owned.set (there_of_names is) _
        · exact Owned.refl s

theorem changeIn_moves (path : List Name) (change : Bytes → Nat → Item) :
    Work.Moves (Owned w part) (changeIn w part path change) :=
  .bind Owned.trans (call_moves.mono Grown.owned) fun m s => by
    cases is : s.dir.names part with
    | none => exact Owned.refl s
    | some thing =>
        dsimp only
        split
        · exact Owned.set (there_of_names is) _
        · exact Owned.refl s

theorem pump_moves (path : List Name) (size file : Nat) :
    ∀ (fuel moved : Nat), Work.Moves (Owned w part) (pump w part path size file fuel moved)
  | 0, _ => .fail Owned.refl _
  | fuel + 1, moved => by
      refine .bind Owned.trans (isStopped_moves.mono Grown.owned) fun stop => ?_
      split
      · exact .fail Owned.refl _
      have read : Work.Moves (Grown w nobody) (readAt w file moved) :=
        .bind Grown.trans call_moves fun _ => .pure Grown.refl _
      refine .bind Owned.trans (read.mono Grown.owned) fun piece => ?_
      split
      · exact .pure Owned.refl _
      split
      · exact .fail Owned.refl _
      · exact .bind Owned.trans (changeIn_moves path _) fun _ => pump_moves path size file fuel _

theorem copyEntry_moves (e : Entry) : Work.Moves (Owned w part) (copyEntry w part e) := by
  refine .bind Owned.trans (isStopped_moves.mono Grown.owned) fun stop => ?_
  split
  · exact .fail Owned.refl _
  refine .bind Owned.trans (.lift Owned.refl _) fun path => ?_
  split
  · exact makeIn_moves path _
  · refine .bind Owned.trans ((ask_moves _).mono Grown.owned) fun file => .bind Owned.trans (makeIn_moves path _) fun _ =>
      .bind Owned.trans (pump_moves path _ file _ _) fun moved => ?_
    split
    · exact .fail Owned.refl _
    · exact .pure Owned.refl _

theorem copyAll_moves : ∀ es : List Entry, Work.Moves (Owned w part) (copyAll w part es)
  | [] => .pure Owned.refl _
  | e :: rest => .bind Owned.trans (copyEntry_moves e) fun _ => copyAll_moves rest

theorem permit_moves : ∀ es : List Entry, Work.Moves (Owned w part) (permit w part es)
  | [] => .pure Owned.refl _
  | e :: rest => by
      rw [permit]
      split
      · exact .bind Owned.trans (.lift Owned.refl _) fun path => .bind Owned.trans (changeIn_moves path _) fun _ =>
          permit_moves rest
      · exact permit_moves rest

/-- A publication that fails has changed no name. -/
theorem publish_failed (ran : publish w at_ s = (.error e, s')) : Grown w nobody s s' := by
  rcases Work.bind_error.mp ran with is | ⟨there, s₁, looked, ran⟩
  · exact (taken_moves _).of_run is
  have grown : Grown w nobody s s₁ := (taken_moves _).of_run looked
  split at ran
  · cases ran
    exact grown
  rcases Work.bind_error.mp ran with is | ⟨_, s₂, _, is⟩
  · rcases Work.bind_error.mp is with is | ⟨m, s₂, called, is⟩
    · exact grown.trans (call_moves.of_run is)
    · obtain ⟨-, rfl⟩ := call_ok called
      split at is
      · cases is
        exact grown.trans (Grown.tick _)
      · cases is
  · cases is

theorem fill_failed {source : Spelling} {m : Manifest} (ran : fill w source m at_ s = (.error e, s')) :
    Owned w at_.part s s' := by
  rcases Work.bind_error.mp ran with is | ⟨_, s₁, copied, ran⟩
  · exact (copyAll_moves _).of_run is
  have owned : Owned w at_.part s s₁ := (copyAll_moves _).of_run copied
  rcases Work.bind_error.mp ran with is | ⟨stop, s₂, asked, ran⟩
  · exact owned.trans (Grown.owned (isStopped_moves.of_run is))
  have owned := owned.trans (Grown.owned (isStopped_moves.of_run asked))
  split at ran
  · cases ran
    exact owned
  rcases Work.bind_error.mp ran with is | ⟨again, s₃, scanned, ran⟩
  · exact owned.trans (Grown.owned ((scan_moves _).of_run is))
  have owned := owned.trans (Grown.owned ((scan_moves _).of_run scanned))
  split at ran
  · cases ran
    exact owned
  rcases Work.bind_error.mp ran with is | ⟨_, s₄, permitted, ran⟩
  · exact owned.trans ((permit_moves _).of_run is)
  have owned := owned.trans ((permit_moves _).of_run permitted)
  exact owned.trans (publish_failed ran).owned

/-- Nothing of the copy's own is there, its own names apart: what stood stands, and what came is of other programs. -/
structure Clean (w : World) (own : Name → Prop) (s s' : State) : Prop where
  later : s.now ≤ s'.now
  kept : ∀ n thing, ¬ own n → s.dir.names n = some thing → s'.dir.names n = some thing
  theirs : ∀ n thing, ¬ own n → s'.dir.names n = some thing →
    s.dir.names n = some thing ∨ ∃ t, s.now ≤ t ∧ t < s'.now ∧ (w t).others.names n = some thing

theorem Grown.clean (grown : Grown w own s s') : Clean w own s s' :=
  ⟨grown.later, grown.kept, grown.theirs⟩

theorem Clean.after {a b c : State} (grown : Grown w own a b) (clean : Clean w own b c) : Clean w own a c where
  later := Nat.le_trans grown.later clean.later
  kept n thing other is := clean.kept n thing other (grown.kept n thing other is)
  theirs n thing other is := by
    rcases clean.theirs n thing other is with is | ⟨t, after, before, created⟩
    · rcases grown.theirs n thing other is with is | ⟨t, after, before, created⟩
      · exact .inl is
      · exact .inr ⟨t, after, Nat.lt_of_lt_of_le before clean.later, created⟩
    · exact .inr ⟨t, Nat.le_trans grown.later after, before, created⟩

/-- What is swept away leaves the names as they were without it. -/
theorem Landed.swept {s₁ s₂ : State} (landed : Landed w s s₁ at_) (owned : Owned w at_.part s₁ s₂) :
    Clean w nobody s (sweep w at_.part s₂).2 := by
  obtain ⟨⟨s₀, grown, now, free, others⟩, made, -⟩ := landed
  have whole : Grown w (· = at_.part) s s₂ :=
    (grown.mono fun _ is => is.elim).trans (Grown.trans (.of_same now fun n other => others n other) owned.grown)
  have stands : (tick w s₂).2.dir.names at_.part ≠ none :=
    (Grown.tick s₂).owned.stands (owned.stands (by rw [made]; exact Option.some_ne_none _))
  obtain ⟨thing, is⟩ := Option.ne_none_iff_exists'.mp stands
  have there := there_of_names is
  have whole : Grown w (· = at_.part) s (tick w s₂).2 := whole.trans (Grown.tick s₂)
  have names : ∀ n, (sweep w at_.part s₂).2.dir.names n
      = if n = at_.part then none else (tick w s₂).2.dir.names n := fun n => names_set _ there _ _ _
  refine ⟨whole.later, fun n thing _ is => ?_, fun n thing _ is => ?_⟩
  · by_cases own : n = at_.part
    · subst own
      rw [grown.kept _ thing id is] at free
      cases free
    · rw [names, if_neg own]
      exact whole.kept n thing own is
  · rw [names] at is
    split at is
    · cases is
    · rename_i other
      exact whole.theirs n thing other is

/-- **A copy that fails leaves nothing of its own among the names.** -/
theorem copyInto_failed {source : Spelling} (ran : copyInto w source s = (.error e, s')) : Clean w nobody s s' := by
  rcases Work.bind_error.mp ran with is | ⟨canonical, s₁, asked, ran⟩
  · exact Grown.clean ((ask_moves _).of_run is)
  have grown : Grown w nobody s s₁ := (ask_moves _).of_run asked
  rcases Work.bind_error.mp ran with is | ⟨m, s₂, ticked, ran⟩
  · exact (grown.trans (tick_moves.of_run is)).clean
  have grown := grown.trans (tick_moves.of_run ticked)
  split at ran
  · cases ran
    exact grown.clean
  rcases Work.bind_error.mp ran with is | ⟨found, s₃, scanned, ran⟩
  · exact (grown.trans ((scan_moves _).of_run is)).clean
  have grown := grown.trans ((scan_moves _).of_run scanned)
  cases found with
  | none =>
      cases ran
      exact grown.clean
  | some manifest =>
      rcases Work.bind_error.mp ran with is | ⟨name, s₄, named, rest⟩
      · obtain rfl : s₃ = s' := congrArg Prod.snd is
        exact grown.clean
      obtain ⟨-, rfl⟩ := Work.lift_ok.mp named
      rcases Work.bind_error.mp rest with is | ⟨at_, s₅, made, ran⟩
      · rcases landing_run name is with ⟨at_, is, -⟩ | ⟨-, grown'⟩
        · cases is
        · exact (grown.trans grown').clean
      rcases landing_run name made with ⟨_, is, landed⟩ | ⟨⟨_, is⟩, -⟩
      · cases is
        unfold dropping at ran
        match filled : fill w source manifest at_ s₅ with
        | (.ok dest, s₆) =>
            rw [filled] at ran
            cases ran
        | (.error e', s₆) =>
            rw [filled] at ran
            cases ran
            exact (landed.swept (fill_failed filled)).after grown
      · cases is

end Khor.Tree
