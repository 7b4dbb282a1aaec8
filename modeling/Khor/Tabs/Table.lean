/-
Module: Khor.Tabs.Table
Purpose: The tab table (crates/node/src/tabs.rs): for each kind a list of tabs and the one in front, and what each
  operation makes of the list that it has read.
Trusted boundary: sorting, hash maps, `min_by_key` and number formatting of the language
Main exports: Tab, Open, Open.settle, Op, Op.work
-/
import Khor.Lib.Numerals

namespace Khor.Tabs

structure Tab where
  id : String
  device : String
  url : String
  title : String
  pinned : Bool
  touched : Nat
  session : String
  view : Option String
  request : String
deriving DecidableEq

structure Open where
  tabs : List Tab
  active : String

instance : Inhabited Open := ⟨⟨[], ""⟩⟩

/-- `sort_by_key(|t| !t.pinned)`, which is stable. -/
def sorted (tabs : List Tab) : List Tab :=
  tabs.insertionSort fun a b => (!a.pinned) ≤ (!b.pinned)

def Open.settle (o : Open) : Open :=
  let tabs := sorted o.tabs
  if tabs.any (·.id = o.active) then { tabs, active := o.active }
  else { tabs, active := (tabs.head?.map Tab.id).getD "" }

/-- What an operation reads of the clock, of its process and of the process's counter: `ms` and `n` for a handle,
`now` for `touched`. -/
structure Stamp where
  ms : Nat
  pid : Nat
  n : Nat
  now : Nat

def Stamp.mint (s : Stamp) : String :=
  "t" ++ hexadecimal s.ms ++ "-" ++ hexadecimal s.pid ++ "-" ++ toString s.n

def noSuchTab (id : String) : String := "No such tab: " ++ id

def TAB_PINNED : String := "This tab is pinned — unpin it before deleting it"

def INVALID_VIEW : String := "invalid content view"

def checkedView (kind : String) : Option String → Except String (Option String)
  | none => .ok none
  | some view =>
      if view ∈ ["workspace", "file", "page", "commit"] ∧ kind = "content" then .ok (some view)
      else .error INVALID_VIEW

/-- The tab that is neither pinned nor in front and was touched longest ago, the leftmost of them. -/
def stalest (o : Open) : Option Nat :=
  ((o.tabs.zipIdx.filter fun x => !x.1.pinned && x.1.id ≠ o.active).argmin fun x =>
    toLex (x.1.touched, x.2)).map Prod.snd

/-- What the limit takes away. -/
def Open.limited (limit : Option Nat) (o : Open) : Open :=
  match limit with
  | none => o
  | some limit =>
      if limit < o.tabs.length then
        match stalest o with
        | some place => { o with tabs := o.tabs.eraseIdx place }
        | none => o
      else o

/-- The tab that an earlier try of the same request opened. -/
def Open.requested (session request : String) (o : Open) : Option Tab :=
  if request = "" then none else o.tabs.find? fun t => t.request = request ∧ t.session = session

/-- Right after the tab `after`, or at the end. -/
def Open.beside (after : String) (o : Open) : Nat :=
  match o.tabs.findIdx? fun t => after ≠ "" ∧ t.id = after with
  | some i => i + 1
  | none => o.tabs.length

def openRequested (s : Stamp) (limit : Option Nat) (device url session after : String) (view : Option String)
    (request : String) (o : Open) : Open × String :=
  match o.requested session request with
  | some tab => ({ o with active := tab.id }, tab.id)
  | none =>
      let tab : Tab :=
        { id := s.mint, device, url, title := "", pinned := false, touched := s.now, session, view, request }
      (Open.limited limit { tabs := o.tabs.insertIdx (o.beside after) tab, active := tab.id }, tab.id)

def adoptPinned (s : Stamp) (device url : String) (o : Open) : Open × String :=
  let tab : Tab :=
    { id := s.mint, device, url, title := "", pinned := true, touched := 0, session := "", view := none,
      request := "" }
  ({ o with tabs := o.tabs ++ [tab] }, tab.id)

/-- Change the first tab of that name, if there is one. -/
def alter (id : String) (f : Tab → Tab) : List Tab → Option (List Tab)
  | [] => none
  | t :: rest => if t.id = id then some (f t :: rest) else (alter id f rest).map (t :: ·)

def goWithView (s : Stamp) (id device url title : String) (view : Option String) (o : Open) : Except String Open :=
  match alter id (fun t => { t with device, url, title, view := view.or t.view, touched := s.now }) o.tabs with
  | some tabs => .ok { o with tabs }
  | none => .error (noSuchTab id)

def pin (id : String) (on : Bool) (o : Open) : Except String Open :=
  match o.tabs.find? (·.id = id) with
  | none => .error (noSuchTab id)
  | some tab =>
      let rest := o.tabs.eraseP (·.id = id)
      .ok { o with tabs := rest.insertIdx (rest.takeWhile Tab.pinned).length { tab with pinned := on } }

def focus (s : Stamp) (id : String) (o : Open) : Except String Open :=
  match alter id (fun t => { t with touched := s.now }) o.tabs with
  | some tabs => .ok { tabs, active := id }
  | none => .error (noSuchTab id)

/-- What takes the front when the tab at `place` is gone. -/
def neighbour (rest : List Tab) (place : Nat) : String :=
  (rest[min place (rest.length - 1)]?.map Tab.id).getD ""

def close (kind id : String) (o : Open) : Except String Open :=
  match o.tabs.findIdx? (·.id = id) with
  | none => .error (noSuchTab id)
  | some place =>
      if kind ≠ "page" ∧ o.tabs[place]?.any Tab.pinned then .error TAB_PINNED
      else
        let rest := o.tabs.eraseIdx place
        .ok { tabs := rest, active := if o.active = id then neighbour rest place else o.active }

/-- A row of the caller, with what is the file's to say. -/
def Tab.keptFrom (t was : Tab) : Tab :=
  { t with pinned := was.pinned, touched := was.touched, session := was.session, view := was.view,
           request := was.request }

/-- The rows of a `save_all`, each looked up in the file. -/
def rowsFor (tabs : List Tab) : List Tab → Except String (List Tab)
  | [] => .ok []
  | t :: want =>
      match tabs.find? (·.id = t.id) with
      | none => .error (noSuchTab t.id)
      | some was =>
          match rowsFor tabs want with
          | .ok rows => .ok (t.keptFrom was :: rows)
          | .error e => .error e

def saveAll (want : Open) (o : Open) : Except String Open :=
  match rowsFor o.tabs want.tabs with
  | .ok rows => .ok { tabs := rows, active := want.active }
  | .error e => .error e

/-- The ids of a `reorder` that are there, each once, the `rank` of an id being its place. -/
def ranked (session : String) (tabs : List Tab) : List String → List String → Except String (List String)
  | [], rank => .ok rank
  | id :: ids, rank =>
      match tabs.find? (·.id = id) with
      | none => ranked session tabs ids rank
      | some row =>
          if row.session ≠ session then .error (noSuchTab id)
          else ranked session tabs ids (if id ∈ rank then rank else rank ++ [id])

/-- Put the ordered rows where rows with a rank stand. They are as many, so they never run out. -/
def refill (rank : List String) : List Tab → List Tab → List Tab
  | [], _ => []
  | row :: rows, ordered =>
      if row.id ∈ rank then
        match ordered with
        | next :: ordered => next :: refill rank rows ordered
        | [] => row :: refill rank rows []
      else row :: refill rank rows ordered

/-- `rows.sort_by_key(|row| rank[&row.id])`, which is stable. -/
def byRank (rank : List String) (rows : List Tab) : List Tab :=
  rows.insertionSort fun a b => rank.idxOf a.id ≤ rank.idxOf b.id

def reorder (session : String) (ids : List String) (o : Open) : Except String Open :=
  match ranked session o.tabs ids [] with
  | .ok rank => .ok { o with tabs := refill rank o.tabs (byRank rank (o.tabs.filter (·.id ∈ rank))) }
  | .error e => .error e

/-- An operation with its arguments, and `tabs_limit` as it read it before it takes the hold. -/
inductive Op where
  | openRequested (limit : Option Nat) (device url session after : String) (view : Option String) (request : String)
  | adoptPinned (device url : String)
  | goWithView (id device url title : String) (view : Option String)
  | pin (id : String) (on : Bool)
  | focus (id : String)
  | close (id : String)
  | saveAll (want : Open)
  | reorder (session : String) (ids : List String)

/-- The `view` an operation checks before anything else. -/
def Op.view : Op → Option String
  | .openRequested _ _ _ _ _ view _ | .goWithView _ _ _ _ view => view
  | _ => none

/-- What an operation makes of the tabs of its kind, and the id it answers. -/
def Op.work (s : Stamp) (kind : String) (o : Open) : Op → Except String (Open × Option String)
  | .openRequested limit device url session after view request =>
      let (o', id) := Tabs.openRequested s limit device url session after view request o
      .ok (o', some id)
  | .adoptPinned device url =>
      let (o', id) := Tabs.adoptPinned s device url o
      .ok (o', some id)
  | .goWithView id device url title view => (Tabs.goWithView s id device url title view o).map (·, none)
  | .pin id on => (Tabs.pin id on o).map (·, none)
  | .focus id => (Tabs.focus s id o).map (·, none)
  | .close id => (Tabs.close kind id o).map (·, none)
  | .saveAll want => (Tabs.saveAll want o).map (·, none)
  | .reorder session ids => (Tabs.reorder session ids o).map (·, none)

/-- The table, a list of tabs for each kind that has one. -/
abbrev Table := String → Option Open

/-- The tabs of a kind, none if it has no list. -/
def Table.of (all : Table) (kind : String) : Open := (all kind).getD default

def Table.put (all : Table) (kind : String) (o : Open) : Table :=
  fun k => if k = kind then some o else all k

/-- Reads, changes, settles: what there is to write. -/
def change (s : Stamp) (kind : String) (op : Op) (all : Table) : Except String (Table × Option String) :=
  match op.work s kind (all.of kind) with
  | .ok (o, out) => .ok (all.put kind o.settle, out)
  | .error e => .error e

end Khor.Tabs
