/-
Module: Khor.Tabs.Rows
Purpose: What settling and each operation leave of the tabs of a kind: which rows are still there, that ids stay
  distinct and a request names one tab.
Trusted boundary: none
Main exports: Open.Settled, Open.Sound, sorted_eq, settle_settled
-/
import Khor.Tabs.Table

namespace Khor.Tabs

/-- The front names a tab, and pinned tabs stand first. -/
structure Open.Settled (o : Open) : Prop where
  front : o.tabs = [] ∧ o.active = "" ∨ ∃ t ∈ o.tabs, t.id = o.active
  pinnedFirst : o.tabs.Pairwise fun a b => b.pinned → a.pinned

/-- An id names one tab, and so does a request of a session. -/
structure Open.Sound (o : Open) : Prop where
  distinct : (o.tabs.map Tab.id).Nodup
  asked : ∀ a ∈ o.tabs, ∀ b ∈ o.tabs, a.request ≠ "" → a.request = b.request → a.session = b.session → a = b

variable {o o' : Open} {t : Tab} {tabs : List Tab} {id session request device url : String} {f : Tab → Tab}
  {s : Stamp}

theorem Open.Sound.same (h : o.Sound) {a b : Tab} (ha : a ∈ o.tabs) (hb : b ∈ o.tabs) (same : a.id = b.id) : a = b :=
  List.inj_on_of_nodup_map h.distinct ha hb same

/-! ### Settling -/

theorem orderedInsert_pinned (pinned : t.pinned) (rest : List Tab) :
    rest.orderedInsert (fun a b => (!a.pinned) ≤ (!b.pinned)) t = t :: rest := by
  cases rest with
  | nil => rfl
  | cons b rest => exact if_pos (by simp [pinned])

theorem orderedInsert_unpinned (free : ¬t.pinned) {pins rest : List Tab} (all : ∀ a ∈ pins, a.pinned)
    (none_ : ∀ a ∈ rest, ¬a.pinned) :
    (pins ++ rest).orderedInsert (fun a b => (!a.pinned) ≤ (!b.pinned)) t = pins ++ t :: rest := by
  induction pins with
  | nil =>
      cases rest with
      | nil => rfl
      | cons b rest => exact if_pos (by simp [none_ b List.mem_cons_self])
  | cons a pins ih =>
      have later := ih fun b mem => all b (.tail a mem)
      have first : a.pinned := all a (.head _)
      calc (a :: (pins ++ rest)).orderedInsert (fun a b => (!a.pinned) ≤ (!b.pinned)) t
          = a :: (pins ++ rest).orderedInsert (fun a b => (!a.pinned) ≤ (!b.pinned)) t := if_neg (by simp [first, free])
        _ = a :: (pins ++ t :: rest) := by rw [later]

/-- The pinned tabs and then the others, each in the order they had. -/
theorem sorted_eq (tabs : List Tab) : sorted tabs = tabs.filter Tab.pinned ++ tabs.filter (!·.pinned) := by
  induction tabs with
  | nil => rfl
  | cons t rest ih =>
      have step : sorted (t :: rest) = (sorted rest).orderedInsert (fun a b => (!a.pinned) ≤ (!b.pinned)) t := rfl
      rw [step, ih]
      by_cases pinned : t.pinned
      · rw [orderedInsert_pinned pinned, List.filter_cons_of_pos pinned, List.filter_cons_of_neg (by simp [pinned]),
          List.cons_append]
      · rw [orderedInsert_unpinned pinned (fun a mem => (List.mem_filter.mp mem).2)
            (fun a mem => by simpa using (List.mem_filter.mp mem).2),
          List.filter_cons_of_neg pinned, List.filter_cons_of_pos (by simp [pinned])]

theorem sorted_perm (tabs : List Tab) : (sorted tabs).Perm tabs :=
  List.perm_insertionSort _ tabs

theorem sorted_pinnedFirst (tabs : List Tab) : (sorted tabs).Pairwise fun a b => b.pinned → a.pinned := by
  rw [sorted_eq, List.pairwise_append]
  refine ⟨?_, ?_, ?_⟩
  · exact List.Pairwise.imp_of_mem (R := fun _ _ => True)
      (fun mem _ _ _ => (List.mem_filter.mp mem).2) (List.pairwise_of_forall fun _ _ => trivial)
  · exact List.Pairwise.imp_of_mem (R := fun _ _ => True)
      (fun _ mem _ pinned => by simp [pinned] at mem) (List.pairwise_of_forall fun _ _ => trivial)
  · intro a first _ _ _
    exact (List.mem_filter.mp first).2

theorem sorted_of_pinnedFirst (h : tabs.Pairwise fun a b => b.pinned → a.pinned) : sorted tabs = tabs := by
  refine List.Pairwise.insertionSort_eq (h.imp fun {a b} first => ?_)
  cases pinned : b.pinned with
  | false => simp
  | true => simp [first pinned]

@[simp] theorem settle_tabs (o : Open) : o.settle.tabs = sorted o.tabs := by
  unfold Open.settle
  dsimp only
  split <;> rfl

theorem mem_settle : t ∈ o.settle.tabs ↔ t ∈ o.tabs := by
  rw [settle_tabs]
  exact (sorted_perm o.tabs).mem_iff

/-- A front that is there stays the front. -/
theorem settle_active (mem : t ∈ o.tabs) (is : t.id = o.active) : o.settle.active = o.active := by
  unfold Open.settle
  dsimp only
  rw [if_pos]
  exact List.any_eq_true.mpr ⟨t, (sorted_perm o.tabs).mem_iff.mpr mem, decide_eq_true is⟩

theorem settle_settled (o : Open) : o.settle.Settled := by
  refine ⟨?_, by rw [settle_tabs]; exact sorted_pinnedFirst o.tabs⟩
  by_cases there : ∃ t ∈ o.tabs, t.id = o.active
  · obtain ⟨t, mem, is⟩ := there
    exact .inr ⟨t, mem_settle.mpr mem, is.trans (settle_active mem is).symm⟩
  · have absent : ¬(sorted o.tabs).any (·.id = o.active) := by
      intro any
      obtain ⟨t, mem, is⟩ := List.any_eq_true.mp any
      exact there ⟨t, (sorted_perm o.tabs).mem_iff.mp mem, of_decide_eq_true is⟩
    have active : o.settle.active = ((sorted o.tabs).head?.map Tab.id).getD "" := by
      unfold Open.settle
      exact congrArg Open.active (if_neg absent)
    rw [active, settle_tabs]
    cases sorted o.tabs with
    | nil => exact .inl ⟨rfl, rfl⟩
    | cons t rest => exact .inr ⟨t, .head _, rfl⟩

/-- Settling moves rows and changes none. -/
theorem Open.Sound.settle (h : o.Sound) : o.settle.Sound := by
  refine ⟨?_, fun a ha b hb => h.asked a (mem_settle.mp ha) b (mem_settle.mp hb)⟩
  rw [settle_tabs]
  exact ((sorted_perm o.tabs).map Tab.id).nodup_iff.mpr h.distinct

/-! ### Rows -/

/-- The rows have ids of their own, and each is a row that was there but for what no request is told apart by. -/
theorem Open.Sound.of_rows (h : o.Sound) (distinct : (o'.tabs.map Tab.id).Nodup)
    (rows : ∀ t ∈ o'.tabs, ∃ was ∈ o.tabs, was.id = t.id ∧ was.request = t.request ∧ was.session = t.session) :
    o'.Sound := by
  refine ⟨distinct, fun a ha b hb some_ request session => ?_⟩
  obtain ⟨wasA, memA, idA, requestA, sessionA⟩ := rows a ha
  obtain ⟨wasB, memB, idB, requestB, sessionB⟩ := rows b hb
  have same : wasA = wasB :=
    h.asked wasA memA wasB memB (requestA ▸ some_) (by rw [requestA, requestB, request])
      (by rw [sessionA, sessionB, session])
  exact List.inj_on_of_nodup_map distinct ha hb (by rw [← idA, ← idB, same])

theorem Open.Sound.of_sublist (h : o.Sound) (sub : o'.tabs.Sublist o.tabs) : o'.Sound :=
  h.of_rows ((sub.map Tab.id).nodup h.distinct) fun t mem => ⟨t, sub.subset mem, rfl, rfl, rfl⟩

theorem Open.Sound.of_perm (h : o.Sound) (same : o'.tabs.Perm o.tabs) : o'.Sound :=
  h.of_rows ((same.map Tab.id).nodup_iff.mpr h.distinct) fun t mem => ⟨t, same.mem_iff.mp mem, rfl, rfl, rfl⟩

/-- One more row, under a new id, of a request that no row is of. -/
theorem Open.Sound.cons {o o' : Open} (h : o.Sound) {t : Tab} (same : o'.tabs.Perm (t :: o.tabs))
    (fresh : t.id ∉ o.tabs.map Tab.id)
    (alone : ∀ a ∈ o.tabs, t.request ≠ "" → a.request = t.request → a.session = t.session → False) : o'.Sound := by
  refine ⟨((same.map Tab.id).nodup_iff).mpr (List.nodup_cons.mpr ⟨fresh, h.distinct⟩), ?_⟩
  intro a ha b hb some_ request session
  obtain rfl | oldA := List.mem_cons.mp (same.mem_iff.mp ha)
  · obtain rfl | oldB := List.mem_cons.mp (same.mem_iff.mp hb)
    · rfl
    · exact (alone b oldB some_ request.symm session.symm).elim
  · obtain rfl | oldB := List.mem_cons.mp (same.mem_iff.mp hb)
    · exact (alone a oldA (request ▸ some_) request session).elim
    · exact h.asked a oldA b oldB some_ request session

theorem alter_some {tabs' : List Tab} (is : alter id f tabs = some tabs') :
    ∃ left t right, tabs = left ++ t :: right ∧ t.id = id ∧ tabs' = left ++ f t :: right := by
  induction tabs generalizing tabs' with
  | nil => cases is
  | cons t rest ih =>
      unfold alter at is
      split at is
      · rename_i named
        cases is
        exact ⟨[], t, rest, rfl, named, rfl⟩
      · obtain ⟨rest', later, rfl⟩ := Option.map_eq_some_iff.mp is
        obtain ⟨left, t', right, rfl, named, rfl⟩ := ih later
        exact ⟨t :: left, t', right, rfl, named, rfl⟩

/-- What changes one row under its id keeps the rows sound. -/
theorem Open.Sound.alter (h : o.Sound) (is : alter id f o.tabs = some o'.tabs)
    (keeps : ∀ t, (f t).id = t.id ∧ (f t).request = t.request ∧ (f t).session = t.session) : o'.Sound := by
  obtain ⟨left, t, right, tabs, _, tabs'⟩ := alter_some is
  have ids : o'.tabs.map Tab.id = o.tabs.map Tab.id := by
    rw [tabs, tabs', List.map_append, List.map_append, List.map_cons, List.map_cons, (keeps t).1]
  refine h.of_rows (ids ▸ h.distinct) fun row mem => ?_
  rw [tabs'] at mem
  rw [tabs]
  obtain before | here := List.mem_append.mp mem
  · exact ⟨row, List.mem_append_left _ before, rfl, rfl, rfl⟩
  · obtain rfl | after := List.mem_cons.mp here
    · exact ⟨t, List.mem_append_right left (.head _), (keeps t).1.symm, (keeps t).2.1.symm,
        (keeps t).2.2.symm⟩
    · exact ⟨row, List.mem_append_right left (.tail t after), rfl, rfl, rfl⟩

theorem mem_alter {tabs' : List Tab} (is : alter id f tabs = some tabs') (mem : t ∈ tabs) (other : t.id ≠ id) :
    t ∈ tabs' := by
  obtain ⟨left, named, right, rfl, isId, rfl⟩ := alter_some is
  obtain before | here := List.mem_append.mp mem
  · exact List.mem_append_left _ before
  · obtain rfl | after := List.mem_cons.mp here
    · exact absurd isId other
    · exact List.mem_append_right left (.tail _ after)

/-! ### A tab more -/

theorem requested_none (none_ : o.requested session request = none) (mem : t ∈ o.tabs) (some_ : request ≠ "")
    (is : t.request = request) (session_ : t.session = session) : False := by
  unfold Open.requested at none_
  rw [if_neg some_] at none_
  have not_ := List.find?_eq_none.mp none_ t mem
  exact not_ (decide_eq_true ⟨is, session_⟩)

theorem requested_some (some_ : o.requested session request = some t) : t ∈ o.tabs := by
  unfold Open.requested at some_
  split at some_
  · cases some_
  · exact List.mem_of_find?_eq_some some_

theorem beside_le (after : String) (o : Open) : o.beside after ≤ o.tabs.length := by
  unfold Open.beside
  split
  · rename_i i is
    exact (List.findIdx?_eq_some_iff_getElem.mp is).1
  · exact Nat.le_refl _

/-- The one to go is not pinned, not in front, and none such was touched before it. -/
theorem stalest_some {place : Nat} (is : stalest o = some place) :
    ∃ t, o.tabs[place]? = some t ∧ ¬t.pinned ∧ t.id ≠ o.active ∧
      ∀ other ∈ o.tabs, ¬other.pinned → other.id ≠ o.active → t.touched ≤ other.touched := by
  unfold stalest at is
  obtain ⟨⟨t, _⟩, least, rfl⟩ := Option.map_eq_some_iff.mp is
  have mem := List.mem_filter.mp (List.argmin_mem least)
  have here := List.mem_zipIdx_iff_getElem?.mp mem.1
  have free := Bool.and_eq_true_iff.mp mem.2
  refine ⟨t, here, by simpa using free.1, of_decide_eq_true free.2, fun other there notPinned notFront => ?_⟩
  obtain ⟨i, at_⟩ := List.mem_iff_getElem?.mp there
  have candidate : (other, i) ∈ o.tabs.zipIdx.filter fun x => !x.1.pinned && x.1.id ≠ o.active :=
    List.mem_filter.mpr ⟨List.mem_zipIdx_iff_getElem?.mpr at_, by simp [notPinned, notFront]⟩
  have le := List.le_of_mem_argmin candidate least
  obtain less | same := (Prod.Lex.toLex_le_toLex ..).mp le
  · exact Nat.le_of_lt less
  · exact Nat.le_of_eq same.1

theorem limited_sublist (limit : Option Nat) (o : Open) : (o.limited limit).tabs.Sublist o.tabs := by
  unfold Open.limited
  split
  · exact .refl _
  · split
    · split
      · exact List.eraseIdx_sublist ..
      · exact .refl _
    · exact .refl _

/-- A tab stays within the limit, and beyond it if it is pinned, in front or not the one touched longest ago. -/
theorem mem_limited {limit : Option Nat} (mem : t ∈ o.tabs)
    (stays : t.pinned ∨ t.id = o.active ∨ (∀ l, limit = some l → o.tabs.length ≤ l) ∨
      ∃ other ∈ o.tabs, ¬other.pinned ∧ other.id ≠ o.active ∧ other.touched < t.touched) :
    t ∈ (o.limited limit).tabs := by
  unfold Open.limited
  split
  · exact mem
  · rename_i l
    split
    · rename_i over_
      split
      · rename_i place is
        obtain ⟨gone, there, notPinned, notFront, least⟩ := stalest_some is
        refine List.mem_eraseIdx_iff_getElem?.mpr ?_
        obtain ⟨i, at_⟩ := List.mem_iff_getElem?.mp mem
        refine ⟨i, ?_, at_⟩
        rintro rfl
        obtain rfl : t = gone := Option.some.inj (at_.symm.trans there)
        obtain pinned | front | within | ⟨other, is, free, back, before⟩ := stays
        · exact notPinned pinned
        · exact notFront front
        · have := within l rfl
          omega
        · have := least other is free back
          omega
      · exact mem
    · exact mem

/-- The tab that `openRequested` opens. -/
def opened (s : Stamp) (device url session : String) (view : Option String) (request : String) : Tab :=
  { id := s.mint, device, url, title := "", pinned := false, touched := s.now, session, view, request }

theorem openRequested_cases (s : Stamp) (limit : Option Nat) (device url session after : String)
    (view : Option String) (request : String) (o : Open) :
    (∃ tab ∈ o.tabs, openRequested s limit device url session after view request o =
      ({ o with active := tab.id }, tab.id)) ∨
    o.requested session request = none ∧ openRequested s limit device url session after view request o =
      (Open.limited limit { tabs := o.tabs.insertIdx (o.beside after) (opened s device url session view request),
                            active := s.mint }, s.mint) := by
  unfold openRequested
  split
  · rename_i tab is
    exact .inl ⟨tab, requested_some is, rfl⟩
  · rename_i none_
    exact .inr ⟨none_, rfl⟩

theorem openRequested_sound {limit : Option Nat} {after : String} {view : Option String} (h : o.Sound)
    (fresh : s.mint ∉ o.tabs.map Tab.id) :
    (openRequested s limit device url session after view request o).1.Sound := by
  obtain ⟨tab, _, is⟩ | ⟨none_, is⟩ := openRequested_cases s limit device url session after view request o
  · rw [is]
    exact h.of_sublist (.refl _)
  · rw [is]
    have more : Open.Sound { tabs := o.tabs.insertIdx (o.beside after) (opened s device url session view request),
                             active := s.mint } :=
      h.cons (List.perm_insertIdx _ _ (beside_le after o)) fresh
        fun a mem some_ request session => requested_none none_ mem some_ request session
    exact more.of_sublist (limited_sublist limit _)

theorem adoptPinned_sound (h : o.Sound) (fresh : s.mint ∉ o.tabs.map Tab.id) :
    (adoptPinned s device url o).1.Sound := by
  refine h.cons (List.perm_append_comm) fresh fun _ _ some_ => absurd rfl some_

/-! ### One tab -/

theorem goWithView_sound {title : String} {view : Option String} (h : o.Sound)
    (is : goWithView s id device url title view o = .ok o') : o'.Sound := by
  unfold goWithView at is
  split at is
  · rename_i tabs altered
    cases is
    exact h.alter altered fun t => ⟨rfl, rfl, rfl⟩
  · cases is

theorem focus_sound (h : o.Sound) (is : focus s id o = .ok o') : o'.Sound := by
  unfold focus at is
  split at is
  · rename_i tabs altered
    cases is
    exact h.alter altered fun t => ⟨rfl, rfl, rfl⟩
  · cases is

/-- A pinned or unpinned tab is put where the pinned ones end. -/
theorem pin_some {on : Bool} (is : pin id on o = .ok o') : ∃ tab ∈ o.tabs, tab.id = id ∧ o'.active = o.active ∧
      o'.tabs.Perm ({ tab with pinned := on } :: o.tabs.eraseP (·.id = id)) ∧
      o.tabs.Perm (tab :: o.tabs.eraseP (·.id = id)) := by
  unfold pin at is
  split at is
  · cases is
  · rename_i tab found
    cases is
    have seam : (List.takeWhile Tab.pinned (o.tabs.eraseP (·.id = id))).length ≤ (o.tabs.eraseP (·.id = id)).length :=
      (List.takeWhile_sublist _).length_le
    obtain ⟨named, left, right, tabs, notNamed⟩ := List.find?_eq_some_iff_append.mp found
    have rest : o.tabs.eraseP (·.id = id) = left ++ right := by
      rw [tabs, List.eraseP_append_right _ fun a mem => by simpa using notNamed a mem, List.eraseP_cons_of_pos (p := fun t : Tab => decide (t.id = id)) named]
    refine ⟨tab, List.mem_of_find?_eq_some found, of_decide_eq_true named, rfl, List.perm_insertIdx _ _ seam, ?_⟩
    rw [rest, tabs]
    exact List.perm_middle

theorem pin_sound {on : Bool} (h : o.Sound) (is : pin id on o = .ok o') : o'.Sound := by
  obtain ⟨tab, mem, named, _, after, before⟩ := pin_some is
  refine h.of_rows ?_ fun row there => ?_
  · have ids : (o'.tabs.map Tab.id).Perm (o.tabs.map Tab.id) := (after.map Tab.id).trans (before.map Tab.id).symm
    exact ids.nodup_iff.mpr h.distinct
  · obtain rfl | old := List.mem_cons.mp (after.mem_iff.mp there)
    · exact ⟨tab, mem, rfl, rfl, rfl⟩
    · exact ⟨row, before.mem_iff.mpr (.tail tab old), rfl, rfl, rfl⟩

theorem close_some {kind : String} (is : close kind id o = .ok o') :
    ∃ place tab, o.tabs[place]? = some tab ∧ tab.id = id ∧ o'.tabs = o.tabs.eraseIdx place := by
  unfold close at is
  split at is
  · cases is
  · rename_i place found
    split at is
    · cases is
    · cases is
      obtain ⟨less, named, _⟩ := List.findIdx?_eq_some_iff_getElem.mp found
      exact ⟨place, o.tabs[place], List.getElem?_eq_getElem less, of_decide_eq_true named, rfl⟩

theorem close_sound {kind : String} (h : o.Sound) (is : close kind id o = .ok o') : o'.Sound := by
  obtain ⟨place, _, _, _, tabs⟩ := close_some is
  exact h.of_sublist (tabs ▸ List.eraseIdx_sublist ..)

end Khor.Tabs
