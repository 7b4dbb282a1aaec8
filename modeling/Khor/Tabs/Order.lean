/-
Module: Khor.Tabs.Order
Purpose: Whole replacement and reordering of a kind's tabs, and what any operation leaves of the tabs that it does
  not concern.
Trusted boundary: none
Main exports: Replaced, refill_perm, reorder_rows, Op.work_sound, Op.work_spares
-/
import Khor.Tabs.Rows

namespace Khor.Tabs

/-! ### The whole list -/

variable {rows : List Tab} {want o o' : Open} {session : String}

/-- The rows are those the caller listed, each with what the file has of the tab under its id. -/
theorem rowsFor_ok {tabs want : List Tab} (is : rowsFor tabs want = .ok rows) :
    List.Forall₂ (fun row t => ∃ was ∈ tabs, was.id = t.id ∧ row = t.keptFrom was) rows want := by
  induction want generalizing rows with
  | nil =>
      cases is
      exact .nil
  | cons t want ih =>
      unfold rowsFor at is
      split at is
      · cases is
      · rename_i was found
        split at is
        · rename_i rest later
          cases is
          have named := List.find?_some found
          exact .cons ⟨was, List.mem_of_find?_eq_some found, of_decide_eq_true named, rfl⟩ (ih later)
        · cases is

/-- What a `save_all` makes of the tabs: the rows of the caller in its order, with pins, times, sessions, renderers and
requests as they were. -/
def Replaced (want o o' : Open) : Prop :=
  List.Forall₂ (fun row t => ∃ was ∈ o.tabs, was.id = t.id ∧ row = t.keptFrom was) o'.tabs want.tabs

theorem saveAll_replaced (is : saveAll want o = .ok o') : Replaced want o o' := by
  unfold saveAll at is
  split at is
  · rename_i rows found
    cases is
    exact rowsFor_ok found
  · cases is

theorem Replaced.ids (h : Replaced want o o') : o'.tabs.map Tab.id = want.tabs.map Tab.id := by
  unfold Replaced at h
  generalize o'.tabs = rows at h ⊢
  generalize want.tabs = listed at h ⊢
  induction h with
  | nil => rfl
  | cons first _ ih =>
      obtain ⟨was, _, _, rfl⟩ := first
      exact congrArg₂ List.cons rfl ih

theorem Replaced.row {want o o' : Open} (h : Replaced want o o') {row : Tab} (mem : row ∈ o'.tabs) :
    ∃ was ∈ o.tabs, ∃ t ∈ want.tabs, was.id = t.id ∧ row = t.keptFrom was := by
  unfold Replaced at h
  generalize o'.tabs = rows at h mem
  generalize want.tabs = listed at h ⊢
  induction h with
  | nil => cases mem
  | cons first _ ih =>
      obtain rfl | later := List.mem_cons.mp mem
      · obtain ⟨was, there, same, is⟩ := first
        exact ⟨was, there, _, .head _, same, is⟩
      · obtain ⟨was, there, t, listed, same, is⟩ := ih later
        exact ⟨was, there, t, .tail _ listed, same, is⟩

/-- A list that names no tab twice keeps the rows sound. -/
theorem Replaced.sound (h : Replaced want o o') (sound : o.Sound) (once : (want.tabs.map Tab.id).Nodup) :
    o'.Sound := by
  refine sound.of_rows (h.ids ▸ once) fun row mem => ?_
  obtain ⟨was, there, t, _, same, rfl⟩ := h.row mem
  exact ⟨was, there, same, rfl, rfl⟩

/-! ### The order -/

/-- Ids with a rank name tabs of the session. -/
theorem ranked_ok {tabs : List Tab} {ids rank rank' : List String} (is : ranked session tabs ids rank = .ok rank')
    (old : ∀ id ∈ rank, ∃ t ∈ tabs, t.id = id ∧ t.session = session) :
    ∀ id ∈ rank', ∃ t ∈ tabs, t.id = id ∧ t.session = session := by
  induction ids generalizing rank with
  | nil =>
      cases is
      exact old
  | cons id ids ih =>
      unfold ranked at is
      split at is
      · exact ih is old
      · rename_i row found
        split at is
        · cases is
        · rename_i own
          refine ih is fun i mem => ?_
          split at mem
          · exact old i mem
          · obtain before | last := List.mem_append.mp mem
            · exact old i before
            · obtain rfl := List.mem_singleton.mp last
              have named := List.find?_some found
              exact ⟨row, List.mem_of_find?_eq_some found, of_decide_eq_true named, Decidable.not_not.mp own⟩

theorem byRank_perm (rank : List String) (rows : List Tab) : (byRank rank rows).Perm rows :=
  List.perm_insertionSort _ rows

section Refill

variable {rank : List String}

variable {ordered : List Tab}

/-- The ordered rows and those without a rank. -/
theorem refill_perm (exact_ : ordered.length = (rows.filter (·.id ∈ rank)).length) :
    (refill rank rows ordered).Perm (ordered ++ rows.filter (·.id ∉ rank)) := by
  induction rows generalizing ordered with
  | nil =>
      obtain rfl := List.length_eq_zero_iff.mp exact_
      exact .refl _
  | cons row rows ih =>
      unfold refill
      split
      · rename_i named
        rw [List.filter_cons_of_pos (by simpa using named)] at exact_
        rw [List.filter_cons_of_neg (by simpa using named)]
        cases ordered with
        | nil => cases exact_
        | cons next ordered => exact (ih (Nat.succ.inj exact_)).cons next
      · rename_i other
        rw [List.filter_cons_of_neg (by simpa using other)] at exact_
        rw [List.filter_cons_of_pos (by simpa using other)]
        exact ((ih exact_).cons row).trans List.perm_middle.symm

/-- A row without a rank stays where it is. -/
theorem refill_stays (exact_ : ordered.length = (rows.filter (·.id ∈ rank)).length) {i : Nat} {t : Tab}
    (here : rows[i]? = some t) (other : t.id ∉ rank) : (refill rank rows ordered)[i]? = some t := by
  induction rows generalizing ordered i with
  | nil => cases here
  | cons row rows ih =>
      unfold refill
      cases i with
      | zero =>
          cases here
          rw [if_neg other]
          rfl
      | succ i =>
          split
          · rename_i named
            rw [List.filter_cons_of_pos (by simpa using named)] at exact_
            cases ordered with
            | nil => cases exact_
            | cons next ordered => exact ih (Nat.succ.inj exact_) here
          · rename_i free
            rw [List.filter_cons_of_neg (by simpa using free)] at exact_
            exact ih exact_ here

/-- What is told of the rows without a rank, and the same of all others, is told in the same order. -/
theorem refill_filter (p : Tab → Bool) (exact_ : ordered.length = (rows.filter (·.id ∈ rank)).length)
    (outR : ∀ t ∈ rows, t.id ∈ rank → p t = false) (outO : ∀ t ∈ ordered, p t = false) :
    (refill rank rows ordered).filter p = rows.filter p := by
  induction rows generalizing ordered with
  | nil => rfl
  | cons row rows ih =>
      have outR' : ∀ t ∈ rows, t.id ∈ rank → p t = false := fun t mem => outR t (.tail row mem)
      unfold refill
      split
      · rename_i named
        rw [List.filter_cons_of_pos (by simpa using named)] at exact_
        rw [List.filter_cons_of_neg (by simp [outR row List.mem_cons_self named])]
        cases ordered with
        | nil => cases exact_
        | cons next ordered =>
            show (next :: refill rank rows ordered).filter p = _
            rw [List.filter_cons_of_neg (by simp [outO next List.mem_cons_self])]
            exact ih (Nat.succ.inj exact_) outR' fun t mem => outO t (.tail next mem)
      · rename_i free
        rw [List.filter_cons_of_neg (by simpa using free)] at exact_
        rw [List.filter_cons, List.filter_cons, ih exact_ outR' outO]

/-- What is the same of all rows with a rank stays told of each place. -/
theorem refill_map (f : Tab → Bool) (b : Bool) (exact_ : ordered.length = (rows.filter (·.id ∈ rank)).length)
    (inR : ∀ t ∈ rows, t.id ∈ rank → f t = b) (inO : ∀ t ∈ ordered, f t = b) :
    (refill rank rows ordered).map f = rows.map f := by
  induction rows generalizing ordered with
  | nil => rfl
  | cons row rows ih =>
      have inR' : ∀ t ∈ rows, t.id ∈ rank → f t = b := fun t mem => inR t (.tail row mem)
      unfold refill
      split
      · rename_i named
        rw [List.filter_cons_of_pos (by simpa using named)] at exact_
        cases ordered with
        | nil => cases exact_
        | cons next ordered =>
            show f next :: (refill rank rows ordered).map f = f row :: rows.map f
            rw [ih (Nat.succ.inj exact_) inR' fun t mem => inO t (List.mem_cons_of_mem next mem),
              inO next (.head _), inR row (.head _) named]
      · rename_i free
        rw [List.filter_cons_of_neg (by simpa using free)] at exact_
        rw [List.map_cons, List.map_cons, ih exact_ inR' inO]

end Refill

/-- What a `reorder` makes of the tabs, once they are settled: the same tabs with the same one in front; those of other
sessions in the order they had, and in their places unless it moved pinned tabs past others. -/
structure Reordered (session : String) (o o' : Open) : Prop where
  perm : o'.tabs.Perm o.tabs
  front : o'.active = o.active
  others : o'.tabs.filter (·.session ≠ session) = o.tabs.filter (·.session ≠ session)
  places : ∀ b, (∀ t ∈ o.tabs, t.session = session → t.pinned = b) →
    ∀ (i : Nat) t, o.tabs[i]? = some t → t.session ≠ session → o'.tabs[i]? = some t

theorem reorder_ok {ids : List String} (sound : o.Sound) (is : reorder session ids o = .ok o') :
    ∃ rank, (∀ t ∈ o.tabs, t.id ∈ rank → t.session = session) ∧
      o' = { o with tabs := refill rank o.tabs (byRank rank (o.tabs.filter (·.id ∈ rank))) } := by
  unfold reorder at is
  split at is
  · rename_i rank ranks
    cases is
    refine ⟨rank, fun t mem named => ?_, rfl⟩
    obtain ⟨other, there, same, own⟩ := ranked_ok ranks (fun _ none_ => nomatch none_) t.id named
    exact sound.same mem there same.symm ▸ own
  · cases is

theorem reorder_perm {ids : List String} (is : reorder session ids o = .ok o') : o'.tabs.Perm o.tabs := by
  unfold reorder at is
  split at is
  · rename_i rank _
    cases is
    have exact_ := (byRank_perm rank (o.tabs.filter (·.id ∈ rank))).length_eq
    have front : (byRank rank (o.tabs.filter (·.id ∈ rank)) ++ o.tabs.filter (·.id ∉ rank)).Perm
        (o.tabs.filter (·.id ∈ rank) ++ o.tabs.filter (·.id ∉ rank)) := (byRank_perm rank _).append_right _
    refine ((refill_perm exact_).trans front).trans ?_
    have both := List.filter_append_perm (fun t : Tab => decide (t.id ∈ rank)) o.tabs
    simpa only [decide_not] using both
  · cases is

theorem filter_sorted (p : Tab → Bool) (tabs : List Tab) : (sorted tabs).filter p = sorted (tabs.filter p) := by
  rw [sorted_eq, sorted_eq, List.filter_append, List.filter_filter, List.filter_filter, List.filter_filter,
    List.filter_filter]
  simp only [Bool.and_comm]

theorem reorder_rows {ids : List String} (sound : o.Sound) (settled : o.Settled) (is : reorder session ids o = .ok o') :
    Reordered session o o'.settle := by
  have perm := reorder_perm is
  obtain ⟨rank, own, rfl⟩ := reorder_ok sound is
  have exact_ := (byRank_perm rank (o.tabs.filter (·.id ∈ rank))).length_eq
  have ownO : ∀ t ∈ byRank rank (o.tabs.filter (·.id ∈ rank)), t ∈ o.tabs ∧ t.session = session := by
    intro t mem
    obtain ⟨there, named⟩ := List.mem_filter.mp ((byRank_perm rank _).mem_iff.mp mem)
    exact ⟨there, own t there (of_decide_eq_true named)⟩
  refine ⟨?_, ?_, ?_, ?_⟩
  · rw [settle_tabs]
    exact (sorted_perm _).trans perm
  · obtain ⟨none_, front⟩ | ⟨t, mem, front⟩ := settled.front
    · unfold Open.settle
      simp [none_, refill, sorted, front]
    · exact settle_active (perm.mem_iff.mpr mem) front
  · rw [settle_tabs, filter_sorted, refill_filter _ exact_ (fun t mem named => by simp [own t mem named])
      (fun t mem => by simp [(ownO t mem).2])]
    exact sorted_of_pinnedFirst (settled.pinnedFirst.sublist List.filter_sublist)
  · intro b alike i t here other
    have pins : (refill rank o.tabs (byRank rank (o.tabs.filter (·.id ∈ rank)))).map Tab.pinned =
        o.tabs.map Tab.pinned :=
      refill_map Tab.pinned b exact_ (fun t mem named => alike t mem (own t mem named))
        fun t mem => alike t (ownO t mem).1 (ownO t mem).2
    have first : (refill rank o.tabs (byRank rank (o.tabs.filter (·.id ∈ rank)))).Pairwise
        fun a b => b.pinned → a.pinned := by
      have before : (o.tabs.map Tab.pinned).Pairwise fun a b => b = true → a = true :=
        List.pairwise_map.mpr settled.pinnedFirst
      rw [← pins] at before
      exact List.pairwise_map.mp before
    rw [settle_tabs, sorted_of_pinnedFirst first]
    exact refill_stays exact_ here fun named => other (own t (List.mem_of_getElem? here) named)

/-! ### Any operation -/

/-- A `save_all` lists no tab twice. -/
def Op.Once : Op → Prop
  | .saveAll want => (want.tabs.map Tab.id).Nodup
  | _ => True

/-- The operation does not concern the tab. An opening past the limit concerns the tab touched longest ago among those
that are not pinned; a whole replacement concerns all. -/
def Op.Spares (op : Op) (o : Open) (t : Tab) : Prop :=
  match op with
  | .openRequested limit .. => t.pinned ∨ (∀ l, limit = some l → o.tabs.length < l) ∨
      ∃ other ∈ o.tabs, ¬other.pinned ∧ other.touched < t.touched
  | .goWithView id .. | .pin id _ | .focus id | .close id => t.id ≠ id
  | .saveAll _ => False
  | .adoptPinned .. | .reorder .. => True

variable {s : Stamp} {kind : String} {op : Op} {o o' : Open} {out : Option String}

theorem map_ok {x : Except String Open} {y : Open × Option String} (is : x.map (·, (none : Option String)) = .ok y) :
    x = .ok y.1 := by
  cases x with
  | error e => cases is
  | ok o =>
      cases is
      rfl

/-- Sound rows are left sound, if a minted id is new and no list names a tab twice. -/
theorem Op.work_sound (sound : o.Sound) (fresh : s.mint ∉ o.tabs.map Tab.id) (once : op.Once)
    (is : op.work s kind o = .ok (o', out)) : o'.Sound := by
  cases op with
  | openRequested limit device url session after view request =>
      cases is
      exact openRequested_sound sound fresh
  | adoptPinned device url =>
      cases is
      exact adoptPinned_sound sound fresh
  | goWithView id device url title view => exact goWithView_sound sound (map_ok is)
  | pin id on => exact pin_sound sound (map_ok is)
  | focus id => exact focus_sound sound (map_ok is)
  | close id => exact close_sound sound (map_ok is)
  | saveAll want => exact (saveAll_replaced (map_ok is)).sound sound once
  | reorder session ids => exact sound.of_perm (reorder_perm (map_ok is))

/-- A tab that the operation does not concern is left as it is. -/
theorem Op.work_spares (fresh : s.mint ∉ o.tabs.map Tab.id) (is : op.work s kind o = .ok (o', out)) {t : Tab}
    (mem : t ∈ o.tabs) (spares : op.Spares o t) : t ∈ o'.tabs := by
  cases op with
  | openRequested limit device url session after view request =>
      cases is
      show t ∈ (Tabs.openRequested s limit device url session after view request o).1.tabs
      obtain ⟨tab, _, is⟩ | ⟨_, is⟩ := openRequested_cases s limit device url session after view request o
      · rw [is]
        exact mem
      · rw [is]
        have old (t : Tab) (mem : t ∈ o.tabs) :
            t ∈ o.tabs.insertIdx (o.beside after) (opened s device url session view request) ∧ t.id ≠ s.mint :=
          ⟨(List.mem_insertIdx (beside_le after o)).mpr (.inr mem), fun same => fresh (same ▸ List.mem_map_of_mem mem)⟩
        refine mem_limited (old t mem).1 ?_
        obtain pinned | within | ⟨other, there, free, before⟩ := spares
        · exact .inl pinned
        · refine .inr (.inr (.inl fun l is => ?_))
          rw [List.length_insertIdx_of_le_length (beside_le after o)]
          exact within l is
        · exact .inr (.inr (.inr ⟨other, (old other there).1, free, (old other there).2, before⟩))
  | adoptPinned device url =>
      cases is
      exact List.mem_append_left _ mem
  | goWithView id device url title view =>
      have went := map_ok is
      unfold Tabs.goWithView at went
      split at went
      · rename_i tabs altered
        cases went
        exact mem_alter altered mem spares
      · cases went
  | pin id on =>
      obtain ⟨tab, _, named, _, after, before⟩ := pin_some (map_ok is)
      obtain rfl | rest := List.mem_cons.mp (before.mem_iff.mp mem)
      · exact absurd named spares
      · exact after.mem_iff.mpr (.tail _ rest)
  | focus id =>
      have went := map_ok is
      unfold Tabs.focus at went
      split at went
      · rename_i tabs altered
        cases went
        exact mem_alter altered mem spares
      · cases went
  | close id =>
      obtain ⟨place, tab, here, named, tabs⟩ := close_some (map_ok is)
      rw [show o'.tabs = _ from tabs]
      obtain ⟨i, at_⟩ := List.mem_iff_getElem?.mp mem
      refine List.mem_eraseIdx_iff_getElem?.mpr ⟨i, ?_, at_⟩
      rintro rfl
      exact spares (Option.some.inj (at_.symm.trans here) ▸ named)
  | saveAll want => exact spares.elim
  | reorder session ids => exact (reorder_perm (map_ok is)).mem_iff.mpr mem

end Khor.Tabs
