/-
Module: Khor.Node.OnceRuns
Purpose: Runs of the requests that make a session once for each token, with answers lost, kills and restarts, retries that
  overlap, and sessions that end. A token has one holder of its lock, one id, which no other token has, and, unless its
  session was removed before a later request looked for it, makes one session.
Trusted boundary: none
Main exports: Locks.step, Inv, Inv.step, made_once, made_twice
-/
import Khor.Lib.Runs
import Khor.Node.Once

namespace Khor.Once

/-! ### One holder -/

/-- Whoever keeps a mutex for a token keeps the one in the table, and one request holds it at most. -/
structure Locks (calls : Nat → Option Call) (locks : Token → Option Nat) : Prop where
  table : ∀ c call m, calls c = some call → call.phase.mutex = some m → locks call.token = some m
  one : ∀ c c' call call' m, calls c = some call → calls c' = some call' → call.phase.holds = some m →
    call'.phase.holds = some m → c = c'

variable {phase : Phase} {w w' : World} {c : Nat} {call : Call} {e : Event} {token : Token}

theorem mutex_of_holds {m : Nat} (holds : phase.holds = some m) : phase.mutex = some m := by
  cases phase <;> first | exact holds | cases holds

section

variable {calls : Nat → Option Call} {locks : Token → Option Nat} {c : Nat} {call : Call}

theorem Locks.dropped (h : Locks calls locks) (c : Nat) : Locks (Function.update calls c none) locks where
  table c' call' m is mutex := by
    by_cases same : c' = c
    · subst same
      rw [Function.update_self] at is
      cases is
    · rw [Function.update_of_ne same] at is
      exact h.table c' call' m is mutex
  one c' c'' call' call'' m is is' holds holds' := by
    by_cases same : c' = c
    · subst same
      rw [Function.update_self] at is
      cases is
    · by_cases same' : c'' = c
      · subst same'
        rw [Function.update_self] at is'
        cases is'
      · rw [Function.update_of_ne same] at is
        rw [Function.update_of_ne same'] at is'
        exact h.one c' c'' call' call'' m is is' holds holds'

/-- A request that goes on with a mutex that is its token's, and holds it only if nobody else does. -/
theorem Locks.replaced (h : Locks calls locks) {new : Call}
    (mutex : ∀ m, new.phase.mutex = some m → locks new.token = some m)
    (holds : ∀ m, new.phase.holds = some m → ∀ other call', other ≠ c → calls other = some call' →
      call'.phase.holds ≠ some m) : Locks (Function.update calls c (some new)) locks where
  table c' call' m is mutex' := by
    by_cases same : c' = c
    · subst same
      rw [Function.update_self] at is
      cases is
      exact mutex m mutex'
    · rw [Function.update_of_ne same] at is
      exact h.table c' call' m is mutex'
  one c' c'' call' call'' m is is' holds' holds'' := by
    by_cases same : c' = c
    · by_cases same' : c'' = c
      · rw [same, same']
      · rw [Function.update_of_ne same'] at is'
        subst same
        rw [Function.update_self] at is
        cases is
        exact absurd holds'' (holds m holds' c'' call'' same' is')
    · rw [Function.update_of_ne same] at is
      by_cases same' : c'' = c
      · subst same'
        rw [Function.update_self] at is'
        cases is'
        exact absurd holds' (holds m holds'' c' call' same is)
      · rw [Function.update_of_ne same'] at is'
        exact h.one c' c'' call' call'' m is is' holds' holds''

/-- A request goes on, with the mutex it has. -/
theorem Locks.goes (h : Locks calls locks) (is : calls c = some call) (mutex : phase.mutex = call.phase.mutex)
    (holds : phase.holds = call.phase.holds) : Locks (Function.update calls c (some { call with phase })) locks := by
  refine h.replaced (fun m has => h.table c call m is (mutex ▸ has)) ?_
  intro m has other call' apart is' holds'
  exact apart (h.one other c call' call m is' is holds' (holds ▸ has))

end

theorem Locks.advance (h : Locks w.calls w.locks) (is : w.calls c = some call)
    (weak : ∀ alive, e = .lock c alive → (alive = true ↔ ∃ m other call', w.locks call.token = some m ∧
      w.calls other = some call' ∧ call'.phase.mutex = some m))
    (free : e = .acquire c → ∀ m, call.phase.mutex = some m → ∀ other call', w.calls other = some call' →
      call'.phase.holds ≠ some m) (own : ∀ c' alive, (e = .lock c' alive ∨ e = .acquire c') → c' = c) :
    Locks (w.advance c call e).calls (w.advance c call e).locks := by
  cases e with
  | lock c' alive =>
      cases own c' alive (.inl rfl)
      have weak := weak alive rfl
      -- where the reference cannot be followed no request of the token keeps a mutex
      have fresh (dead : ¬ (alive = true ∧ w.locks call.token ≠ none)) :
          Locks (w.goes c call (.queued w.mutexes)).calls
            (Function.update w.locks call.token (some w.mutexes)) := by
        have nobody (other : Nat) (call' : Call) (is' : w.calls other = some call') (token : call'.token = call.token)
            (m : Nat) : call'.phase.mutex ≠ some m := by
          intro mutex
          have table := h.table other call' m is' mutex
          rw [token] at table
          refine dead ⟨weak.mpr ⟨m, other, call', table, is', mutex⟩, ?_⟩
          rw [table]
          exact Option.some_ne_none m
        have replaced : Locks w.calls (Function.update w.locks call.token (some w.mutexes)) := by
          refine ⟨?_, h.one⟩
          intro other call' m is' mutex
          by_cases token : call'.token = call.token
          · exact absurd mutex (nobody other call' is' token m)
          · rw [Function.update_of_ne token]
            exact h.table other call' m is' mutex
        refine replaced.replaced (fun m has => ?_) nofun
        rw [Function.update_self]
        exact has
      unfold World.advance
      cases phase : call.phase with
      | asked =>
          cases table : w.locks call.token with
          | none =>
              refine fresh fun both => both.2 table
          | some m =>
              cases alive with
              | true => exact h.replaced (fun m' has => table.trans has) nofun
              | false => exact fresh fun both => Bool.false_ne_true both.1
      | _ => exact h
  | acquire c' =>
      cases own c' true (.inr rfl)
      have free := free rfl
      unfold World.advance
      dsimp only
      split
      · rename_i m queued
        have table := h.table c call m is (by rw [queued]; rfl)
        refine h.replaced (fun m' has => table.trans has) ?_
        intro m' has other call' _ is' 
        cases has
        exact free m (by rw [queued]; rfl) other call' is'
      · exact h
  | read c' leaf =>
      unfold World.advance
      dsimp only
      split
      · rename_i m reading
        split
        · exact h.goes is (by rw [reading]; rfl) (by rw [reading]; rfl)
        · exact h.goes is (by rw [reading]; rfl) (by rw [reading]; rfl)
      · exact h
  | stat c' other =>
      unfold World.advance
      dsimp only
      split
      · rename_i m id _ r noting _
        split
        · exact h.goes is (by rw [noting]; rfl) (by rw [noting]; rfl)
        · exact h
      · exact h
  | unlink c' =>
      unfold World.advance
      dsimp only
      split
      · rename_i m id other noting
        exact h.goes is (by rw [noting]; rfl) (by rw [noting]; rfl)
      · exact h
  | write c' =>
      unfold World.advance
      dsimp only
      split
      · rename_i m id noting
        exact h.goes is (by rw [noting]; rfl) (by rw [noting]; rfl)
      · exact h
  | rename c' =>
      unfold World.advance
      dsimp only
      split
      · rename_i m id moment written
        exact h.goes is (by rw [written]; rfl) (by rw [written]; rfl)
      · exact h
  | look c' =>
      unfold World.advance
      dsimp only
      split
      · rename_i m id looking
        split
        · exact h.goes is (by rw [looking]; rfl) (by rw [looking]; rfl)
        · exact h.goes is (by rw [looking]; rfl) (by rw [looking]; rfl)
      · exact h
  | ended c' ok =>
      unfold World.advance
      dsimp only
      split
      · rename_i m id opening
        split
        · exact h.goes is (by rw [opening]; rfl) (by rw [opening]; rfl)
        · exact h.dropped c
      · exact h
  | answer c' =>
      unfold World.advance
      dsimp only
      split
      · exact h.dropped c
      · exact h
  | fail c' =>
      unfold World.advance
      dsimp only
      split
      · exact h.dropped c
      · exact h.dropped c
      · exact h.dropped c
      · exact h
  | ask | close | tick | kill => exact h

theorem Locks.step {w : World} {e : Event} (may : w.May e) (h : Locks w.calls w.locks) :
    Locks (w.step e).calls (w.step e).locks := by
  have own (c : Nat) (there : ∃ call, w.calls c = some call ∧
      (∀ alive, e = .lock c alive → (alive = true ↔ ∃ m other call', w.locks call.token = some m ∧
        w.calls other = some call' ∧ call'.phase.mutex = some m)) ∧
      (e = .acquire c → ∀ m, call.phase.mutex = some m → ∀ other call', w.calls other = some call' →
        call'.phase.holds ≠ some m))
      (mine : ∀ c' alive, (e = .lock c' alive ∨ e = .acquire c') → c' = c) :
      Locks (w.own c e).calls (w.own c e).locks := by
    obtain ⟨call, is, weak, free⟩ := there
    unfold World.own
    rw [is]
    exact h.advance is weak free mine
  cases e with
  | ask c token kind =>
      unfold World.step
      dsimp only
      split
      · exact h.replaced nofun nofun
      · exact h
  | lock c alive =>
      obtain ⟨call, is, -, weak⟩ := may
      refine own c ⟨call, is, ?_, nofun⟩ ?_
      · rintro _ ⟨⟩
        exact weak
      · rintro c' alive' (same | same) <;> cases same
        rfl
  | acquire c =>
      obtain ⟨call, is, -, free⟩ := may
      refine own c ⟨call, is, nofun, fun _ => free⟩ ?_
      rintro c' alive' (same | same) <;> cases same
      rfl
  | read c | stat c | unlink c | write c | rename c | look c | ended c | answer c | fail c =>
      obtain ⟨call, is, -⟩ := may
      refine own c ⟨call, is, nofun, nofun⟩ ?_
      rintro _ _ (same | same) <;> cases same
  | close | tick => exact h
  | kill => exact ⟨nofun, nofun⟩

/-- Two requests that hold their token's lock are one. -/
theorem Locks.holder {calls : Nat → Option Call} {locks : Token → Option Nat} (h : Locks calls locks) {c' : Nat}
    {call' : Call} (is : calls c = some call) (is' : calls c' = some call') (token : call.token = call'.token)
    (holds : call.phase.holds ≠ none) (holds' : call'.phase.holds ≠ none) : c = c' := by
  obtain ⟨m, has⟩ := Option.ne_none_iff_exists'.mp holds
  obtain ⟨m', has'⟩ := Option.ne_none_iff_exists'.mp holds'
  have table := h.table c call m is (mutex_of_holds has)
  have table' := h.table c' call' m' is' (mutex_of_holds has')
  rw [token, table'] at table
  cases table
  exact h.one c c' call call' _ is is' has has'

/-! ### One id -/

/-- A kind that begins with no white space. -/
def Clean (kind : List Char) : Prop := ∀ first, kind.head? = some first → isWhite first = false

/-- An id whose leaf was drawn for the token. -/
def Proper (owner : List Char → Option Token) (token : Token) (id : Id) : Prop :=
  ∃ kind leaf, id = kind ++ '/' :: leaf ∧ Clean kind ∧ leaf.length = LEAF_HEX ∧ (∀ c ∈ leaf, c ∈ HEX) ∧
    owner leaf = some token

/-- An id that some request of the token opened, made or answered. -/
def Named (w : World) (token : Token) (id : Id) : Prop :=
  (token, id) ∈ w.opens ∨ (token, id) ∈ w.sessions ∨ (token, id) ∈ w.answers

/-- As long as the token is used its record says the id. -/
def Stands (w : World) (token : Token) (id : Id) : Prop :=
  w.Usable token → ∃ moment, w.records token = some ⟨id, moment⟩

/-- What is known where a request is. -/
def At (w : World) (token : Token) : Phase → Prop
  | .asked | .queued _ | .reading _ => True
  | .noting _ id stale => Proper w.owner token id ∧ (w.Usable token → w.records token = none) ∧
      ∀ other, stale = some other → ¬ w.Usable other
  | .written _ id moment => Proper w.owner token id ∧ (w.Usable token → w.records token = none) ∧
      ∃ first, w.first token = some first ∧ first ≤ moment
  | .looking _ id | .opened _ id => Proper w.owner token id ∧ Stands w token id
  | .opening _ id => Proper w.owner token id ∧ Stands w token id ∧ ∀ id', (token, id') ∉ w.sessions

structure Inv (w : World) : Prop where
  locks : Locks w.calls w.locks
  past : ∀ token first, w.first token = some first → first ≤ w.now
  calls : ∀ c call, w.calls c = some call →
    Clean call.kind ∧ (∃ first, w.first call.token = some first ∧ first ≤ w.now) ∧ At w call.token call.phase
  records : ∀ token r, w.records token = some r →
    Proper w.owner token r.id ∧ ∃ first, w.first token = some first ∧ first ≤ r.written
  named : ∀ token id, Named w token id → Proper w.owner token id ∧ Stands w token id
  same : ∀ token id id', Named w token id → Named w token id' → id = id'
  once : (w.sessions.map Prod.fst).Nodup

theorem Inv.start : Inv World.start where
  locks := ⟨nofun, nofun⟩
  past := nofun
  calls := nofun
  records := nofun
  named := by
    rintro token id (mem | mem | mem) <;> cases mem
  same := by
    rintro token id id' (mem | mem | mem) <;> cases mem
  once := .nil

/-- Time goes on and leaves are drawn: what the ghosts of a later state keep. -/
structure Later (w w' : World) : Prop where
  usable : ∀ token, w'.Usable token → w.Usable token
  owner : ∀ leaf token, w.owner leaf = some token → w'.owner leaf = some token
  first : ∀ token first, w.first token = some first → w'.first token = some first
  now : w.now ≤ w'.now

theorem Later.same (owner : w'.owner = w.owner) (first : w'.first = w.first) (now : w'.now = w.now) : Later w w' := by
  refine ⟨?_, ?_, ?_, ?_⟩
  · intro token usable
    unfold World.Usable at usable ⊢
    rw [first, now] at usable
    exact usable
  · intro leaf token is
    rw [owner]
    exact is
  · intro token f is
    rw [first]
    exact is
  · exact Nat.le_of_eq now.symm

theorem Proper.later (later : Later w w') {id : Id} (h : Proper w.owner token id) : Proper w'.owner token id := by
  obtain ⟨kind, leaf, is, clean, long, hex, mine⟩ := h
  exact ⟨kind, leaf, is, clean, long, hex, later.owner leaf token mine⟩

/-- What is known of a request stays known where its record and its sessions do. -/
theorem At.later (later : Later w w') (h : At w token phase)
    (records : w'.Usable token → w'.records token = w.records token)
    (sessions : ∀ id, (token, id) ∈ w'.sessions → (token, id) ∈ w.sessions) : At w' token phase := by
  have stands {id : Id} (h : Stands w token id) : Stands w' token id := by
    intro usable
    rw [records usable]
    exact h (later.usable token usable)
  have absent (h : w.Usable token → w.records token = none) (usable : w'.Usable token) : w'.records token = none := by
    rw [records usable]
    exact h (later.usable token usable)
  cases phase with
  | asked | queued | reading => trivial
  | noting m id stale =>
      obtain ⟨proper, none, dead⟩ := h
      exact ⟨proper.later later, absent none, fun other is usable => dead other is (later.usable other usable)⟩
  | written m id moment =>
      obtain ⟨proper, none, first, is, le⟩ := h
      exact ⟨proper.later later, absent none, first, later.first token first is, le⟩
  | looking m id | opened m id =>
      obtain ⟨proper, there⟩ := h
      exact ⟨proper.later later, stands there⟩
  | opening m id =>
      obtain ⟨proper, there, none⟩ := h
      exact ⟨proper.later later, stands there, fun id' mem => none id' (sessions id' mem)⟩

theorem At.unguarded (h : phase.holds = none) : At w token phase := by
  cases phase <;> trivial

/-- What is known of the other requests while one that holds its lock changes its own token's record and sessions. -/
theorem Inv.others (inv : Inv w) (later : Later w w') (is : w.calls c = some call) (holds : call.phase.holds ≠ none)
    (records : ∀ token, token ≠ call.token → w'.Usable token → w'.records token = w.records token)
    (sessions : ∀ token id, token ≠ call.token → (token, id) ∈ w'.sessions → (token, id) ∈ w.sessions) {c' : Nat}
    {call' : Call} (apart : c' ≠ c) (is' : w.calls c' = some call') : At w' call'.token call'.phase := by
  by_cases guarded : call'.phase.holds = none
  · exact .unguarded guarded
  · have token : call'.token ≠ call.token := fun token => apart (inv.locks.holder is' is token guarded holds)
    exact (inv.calls c' call' is').2.2.later later (records _ token) fun id => sessions _ id token

/-- One request goes on; the records and the ghosts change for its token alone. -/
theorem Inv.change (inv : Inv w) (later : Later w w') (locks : Locks w'.calls w'.locks)
    (past : ∀ token first, w'.first token = some first → first ≤ w'.now) (calls : ∀ c call, w'.calls c = some call →
      Clean call.kind ∧ (∃ first, w'.first call.token = some first ∧ first ≤ w'.now) ∧ At w' call.token call.phase)
    (records : ∀ token r, w'.records token = some r → w.records token = some r ∨
      Proper w'.owner token r.id ∧ ∃ first, w'.first token = some first ∧ first ≤ r.written)
    (kept : ∀ token id, Named w token id → w'.Usable token → w'.records token = w.records token)
    (named : ∀ token id, Named w' token id → Named w token id ∨
      Proper w'.owner token id ∧ Stands w' token id ∧ w'.Usable token) (once : (w'.sessions.map Prod.fst).Nodup) :
    Inv w' := by
  have stands {token : Token} {id : Id} (h : Named w token id) : Stands w' token id := by
    intro usable
    rw [kept token id h usable]
    exact (inv.named token id h).2 (later.usable token usable)
  have one {token : Token} {id id' : Id} (usable : w'.Usable token) (h : Stands w' token id) (h' : Stands w' token id') :
      id = id' := by
    obtain ⟨moment, is⟩ := h usable
    obtain ⟨moment', is'⟩ := h' usable
    rw [is] at is'
    cases is'
    rfl
  refine ⟨locks, past, calls, ?_, ?_, ?_, once⟩
  · intro token r is
    obtain old | new := records token r is
    · obtain ⟨proper, first, is, le⟩ := inv.records token r old
      exact ⟨proper.later later, first, later.first token first is, le⟩
    · exact new
  · intro token id h
    obtain old | ⟨proper, there, -⟩ := named token id h
    · exact ⟨(inv.named token id old).1.later later, stands old⟩
    · exact ⟨proper, there⟩
  · intro token id id' h h'
    obtain old | ⟨-, there, usable⟩ := named token id h
    · obtain old' | ⟨-, there', usable⟩ := named token id' h'
      · exact inv.same token id id' old old'
      · exact one usable (stands old) there'
    · obtain old' | ⟨-, there', -⟩ := named token id' h'
      · exact one usable there (stands old')
      · exact one usable there there'

/-! ### Every event -/

section

variable (inv : Inv w)
include inv

theorem Inv.calls_goes (later : Later w w') (is : w.calls c = some call) (mine : At w' call.token phase)
    (others : ∀ c' call', c' ≠ c → w.calls c' = some call' → At w' call'.token call'.phase) (c' : Nat) (call' : Call)
    (is' : Function.update w.calls c (some { call with phase }) c' = some call') :
    Clean call'.kind ∧ (∃ first, w'.first call'.token = some first ∧ first ≤ w'.now) ∧
      At w' call'.token call'.phase := by
  have kept (c : Nat) (call : Call) (is : w.calls c = some call) :
      Clean call.kind ∧ ∃ first, w'.first call.token = some first ∧ first ≤ w'.now := by
    obtain ⟨clean, ⟨first, was, le⟩, -⟩ := inv.calls c call is
    exact ⟨clean, first, later.first _ _ was, Nat.le_trans le later.now⟩
  by_cases same : c' = c
  · subst same
    rw [Function.update_self] at is'
    cases is'
    exact ⟨(kept c' call is).1, (kept c' call is).2, mine⟩
  · rw [Function.update_of_ne same] at is'
    exact ⟨(kept c' call' is').1, (kept c' call' is').2, others c' call' same is'⟩

theorem Inv.calls_gone (later : Later w w')
    (others : ∀ c' call', c' ≠ c → w.calls c' = some call' → At w' call'.token call'.phase) (c' : Nat) (call' : Call)
    (is' : Function.update w.calls c none c' = some call') :
    Clean call'.kind ∧ (∃ first, w'.first call'.token = some first ∧ first ≤ w'.now) ∧
      At w' call'.token call'.phase := by
  by_cases same : c' = c
  · subst same
    rw [Function.update_self] at is'
    cases is'
  · rw [Function.update_of_ne same] at is'
    obtain ⟨clean, ⟨first, was, le⟩, -⟩ := inv.calls c' call' is'
    exact ⟨clean, ⟨first, later.first _ _ was, Nat.le_trans le later.now⟩, others c' call' same is'⟩

/-- A request goes on and changes nothing but the table of locks. -/
theorem Inv.walk (is : w.calls c = some call) {locks : Token → Option Nat} {mutexes : Nat}
    (held : Locks (w.goes c call phase).calls locks) (mine : At w call.token phase) :
    Inv { w.goes c call phase with locks, mutexes } := by
  have later : Later w { w.goes c call phase with locks, mutexes } := .same rfl rfl rfl
  refine inv.change later held inv.past ?_ (fun _ _ is => .inl is) (fun _ _ _ _ => rfl) (fun _ _ h => .inl h) inv.once
  refine inv.calls_goes later is (mine.later later (fun _ => rfl) fun _ mem => mem) fun c' call' _ is' => ?_
  exact (inv.calls c' call' is').2.2.later later (fun _ => rfl) fun _ mem => mem

/-- A request ends in an error. -/
theorem Inv.gone (c : Nat) : Inv (w.put c none) := by
  have later : Later w (w.put c none) := .same rfl rfl rfl
  refine inv.change later (inv.locks.dropped c) inv.past ?_ (fun _ _ is => .inl is) (fun _ _ _ _ => rfl) (fun _ _ h => .inl h)
    inv.once
  refine inv.calls_gone later fun c' call' _ is' => ?_
  exact (inv.calls c' call' is').2.2.later later (fun _ => rfl) fun _ mem => mem

theorem made_proper (token : Token) : (made w.records token = none ∧ w.records token = none) ∨
      ∃ r, made w.records token = some r.id ∧ w.records token = some r ∧ Proper w.owner token r.id := by
  unfold made
  cases is : w.records token with
  | none => exact .inl ⟨rfl, rfl⟩
  | some r =>
      have proper := (inv.records token r is).1
      obtain ⟨kind, leaf, id, clean, long, hex, -⟩ := proper
      have trimmed : trim r.id = r.id := by
        rw [id]
        exact trim_id clean long hex
      have some_ : r.id.isEmpty = false := by
        rw [id]
        cases kind <;> rfl
      refine .inr ⟨r, ?_, rfl, (inv.records token r is).1⟩
      dsimp only
      rw [trimmed, some_]
      rfl

section

variable (is : w.calls c = some call)
include is

theorem Inv.read {leaf : List Char}
    (held : Locks (w.advance c call (.read c leaf)).calls (w.advance c call (.read c leaf)).locks)
    (drawn : leaf.length = LEAF_HEX ∧ (∀ c ∈ leaf, c ∈ HEX) ∧ w.owner leaf = none) :
    Inv (w.advance c call (.read c leaf)) := by
  obtain ⟨long, hex, free⟩ := drawn
  unfold World.advance at held ⊢
  dsimp only at held ⊢
  cases phase : call.phase with
  | reading m =>
      rw [phase] at held
      dsimp only at held ⊢
      obtain ⟨none, absent⟩ | ⟨r, found, there, proper⟩ := made_proper inv call.token
      · rw [none] at held ⊢
        dsimp only at held ⊢
        have later : Later w { w.goes c call (.noting m (call.kind ++ '/' :: leaf) Option.none) with
            owner := Function.update w.owner leaf (some call.token) } := by
          refine ⟨fun _ h => h, ?_, fun _ _ h => h, Nat.le_refl _⟩
          intro leaf' token owned
          by_cases same : leaf' = leaf
          · rw [same, free] at owned
            cases owned
          · exact (Function.update_of_ne same ..).trans owned
        refine inv.change later held inv.past ?_ (fun _ _ is => .inl is) (fun _ _ _ _ => rfl) (fun _ _ h => .inl h) inv.once
        refine inv.calls_goes later is ?_ fun c' call' _ is' => ?_
        · refine ⟨⟨call.kind, leaf, rfl, (inv.calls c call is).1, long, hex, Function.update_self ..⟩, fun _ => absent,
            nofun⟩
        · exact (inv.calls c' call' is').2.2.later later (fun _ => rfl) fun _ mem => mem
      · rw [found] at held ⊢
        exact inv.walk is held ⟨proper, fun _ => ⟨r.written, there⟩⟩
  | _ => exact inv

theorem Inv.note
    (own : (∃ other, e = .stat c other) ∨ e = .unlink c ∨ e = .write c)
    (held : Locks (w.advance c call e).calls (w.advance c call e).locks) : Inv (w.advance c call e) := by
  obtain ⟨-, ⟨first, used, le⟩, place⟩ := inv.calls c call is
  rcases own with ⟨other, rfl⟩ | rfl | rfl
  · unfold World.advance at held ⊢
    dsimp only at held ⊢
    cases phase : call.phase with
    | noting m id stale =>
        rw [phase] at held place
        obtain ⟨proper, absent, dead⟩ := place
        cases there : w.records other with
        | none => exact inv
        | some r =>
            rw [there] at held
            dsimp only at held ⊢
            split
            · rename_i old
              rw [if_pos old] at held
              refine inv.walk is held ⟨proper, absent, ?_⟩
              rintro other' ⟨⟩ usable
              obtain ⟨first, was, le⟩ := (inv.records other r there).2
              have := usable first was
              omega
            · exact inv
    | _ => exact inv
  · unfold World.advance at held ⊢
    dsimp only at held ⊢
    cases phase : call.phase with
    | noting m id stale =>
        rw [phase] at held place
        obtain ⟨proper, absent, dead⟩ := place
        cases stale with
        | none => exact inv
        | some other =>
            have gone := dead other rfl
            have later : Later w { w.goes c call (.noting m id none) with
                records := Function.update w.records other none } := .same rfl rfl rfl
            -- nothing stands on a record whose token is not used any more
            have kept (token : Token) (usable : w.Usable token) :
                Function.update w.records other none token = w.records token :=
              Function.update_of_ne (fun same : token = other => gone (same ▸ usable)) ..
            have mine : At w call.token (.noting m id none) := ⟨proper, absent, nofun⟩
            refine inv.change later held inv.past ?_ ?_ (fun token _ _ usable => kept token usable) (fun _ _ h => .inl h)
              inv.once
            · refine inv.calls_goes later is (mine.later later (kept _) fun _ mem => mem) fun c' call' _ is' => ?_
              exact (inv.calls c' call' is').2.2.later later (kept _) fun _ mem => mem
            · intro token r is
              dsimp only at is
              by_cases same : token = other
              · subst same
                rw [Function.update_self] at is
                cases is
              · rw [Function.update_of_ne same] at is
                exact .inl is
    | _ => exact inv
  · unfold World.advance at held ⊢
    dsimp only at held ⊢
    cases phase : call.phase with
    | noting m id stale =>
        rw [phase] at held place
        obtain ⟨proper, absent, dead⟩ := place
        cases stale with
        | none => exact inv.walk is held ⟨proper, absent, first, used, le⟩
        | some other => exact inv
    | _ => exact inv

/-- The record is placed: nothing of the token stood on another, as it had none. -/
theorem Inv.rename (usable : w.Usable call.token)
    (held : Locks (w.advance c call (.rename c)).calls (w.advance c call (.rename c)).locks) :
    Inv (w.advance c call (.rename c)) := by
  have place := (inv.calls c call is).2.2
  unfold World.advance at held ⊢
  dsimp only at held ⊢
  cases phase : call.phase with
  | written m id moment =>
      rw [phase] at held place
      dsimp only at held ⊢
      obtain ⟨proper, absent, first, used, le⟩ := place
      have later : Later w { w.goes c call (.looking m id) with
          records := Function.update w.records call.token (some ⟨id, moment⟩) } := .same rfl rfl rfl
      have apart {token : Token} (other : token ≠ call.token) :
          Function.update w.records call.token (some ⟨id, moment⟩) token = w.records token :=
        Function.update_of_ne other ..
      refine inv.change later held inv.past ?_ ?_ ?_ (fun _ _ h => .inl h) inv.once
      · refine inv.calls_goes later is ⟨proper, fun _ => ⟨moment, Function.update_self ..⟩⟩ fun c' call' other is' => ?_
        exact inv.others later is (by rw [phase]; exact Option.some_ne_none m) (fun _ other _ => apart other)
          (fun _ _ _ mem => mem) other is'
      · intro token r is
        dsimp only at is
        by_cases same : token = call.token
        · subst same
          rw [Function.update_self] at is
          cases is
          exact .inr ⟨proper, first, used, le⟩
        · rw [apart same] at is
          exact .inl is
      · intro token id' h usable'
        by_cases same : token = call.token
        · subst same
          obtain ⟨moment', there⟩ := (inv.named _ id' h).2 usable
          rw [absent usable] at there
          cases there
        · exact apart same
  | _ => exact inv

theorem Inv.look (usable : w.Usable call.token)
    (kept : ∀ id, (call.token, id) ∈ w.sessions → w.metaJson id = true)
    (held : Locks (w.advance c call (.look c)).calls (w.advance c call (.look c)).locks) :
    Inv (w.advance c call (.look c)) := by
  have place := (inv.calls c call is).2.2
  unfold World.advance at held ⊢
  dsimp only at held ⊢
  cases phase : call.phase with
  | looking m id =>
      rw [phase] at held place
      dsimp only at held ⊢
      obtain ⟨proper, there⟩ := place
      cases exists_ : w.metaJson id with
      | true =>
          rw [exists_] at held
          exact inv.walk is held ⟨proper, there⟩
      | false =>
          rw [exists_] at held
          have later : Later w { w.goes c call (.opening m id) with opens := (call.token, id) :: w.opens } :=
            .same rfl rfl rfl
          -- the session of the token is still there, and this is its id
          have none_made (id' : Id) : (call.token, id') ∉ w.sessions := by
            intro mem
            obtain ⟨moment, stands⟩ := there usable
            obtain ⟨moment', stands'⟩ := (inv.named _ id' (.inr (.inl mem))).2 usable
            rw [stands] at stands'
            cases stands'
            have meta_there := kept id mem
            rw [exists_] at meta_there
            cases meta_there
          refine inv.change later held inv.past ?_ (fun _ _ is => .inl is) (fun _ _ _ _ => rfl) ?_ inv.once
          · refine inv.calls_goes later is ⟨proper, there, none_made⟩ fun c' call' _ is' => ?_
            exact (inv.calls c' call' is').2.2.later later (fun _ => rfl) fun _ mem => mem
          · rintro token id' (mem | mem | mem)
            · obtain new | old := List.mem_cons.mp mem
              · cases new
                exact .inr ⟨proper, there, usable⟩
              · exact .inl (.inl old)
            · exact .inl (.inr (.inl mem))
            · exact .inl (.inr (.inr mem))
  | _ => exact inv

theorem Inv.ended (usable : w.Usable call.token) (ok : Bool)
    (held : Locks (w.advance c call (.ended c ok)).calls (w.advance c call (.ended c ok)).locks) :
    Inv (w.advance c call (.ended c ok)) := by
  have place := (inv.calls c call is).2.2
  unfold World.advance at held ⊢
  dsimp only at held ⊢
  cases phase : call.phase with
  | opening m id =>
      rw [phase] at held place
      dsimp only at held ⊢
      obtain ⟨proper, there, none_made⟩ := place
      cases ok with
      | false => exact inv.gone c
      | true =>
          have later : Later w { w.goes c call (.opened m id) with
              metaJson := Function.update w.metaJson id true
              sessions := (call.token, id) :: w.sessions } := .same rfl rfl rfl
          refine inv.change later held inv.past ?_ (fun _ _ is => .inl is) (fun _ _ _ _ => rfl) ?_ ?_
          · refine inv.calls_goes later is ⟨proper, there⟩ fun c' call' other is' => ?_
            refine inv.others later is (by rw [phase]; exact Option.some_ne_none m) (fun _ _ _ => rfl) ?_ other is'
            intro token id' apart mem
            obtain new | old := List.mem_cons.mp mem
            · cases new
              exact absurd rfl apart
            · exact old
          · rintro token id' (mem | mem | mem)
            · exact .inl (.inl mem)
            · obtain new | old := List.mem_cons.mp mem
              · cases new
                exact .inr ⟨proper, there, usable⟩
              · exact .inl (.inr (.inl old))
            · exact .inl (.inr (.inr mem))
          · refine List.nodup_cons.mpr ⟨?_, inv.once⟩
            intro mem
            obtain ⟨⟨token, id'⟩, there', rfl⟩ := List.mem_map.mp mem
            exact none_made id' there'
  | _ => exact inv

theorem Inv.answer (usable : w.Usable call.token) :
    Inv (w.advance c call (.answer c)) := by
  have place := (inv.calls c call is).2.2
  unfold World.advance
  dsimp only
  cases phase : call.phase with
  | opened m id =>
      rw [phase] at place
      obtain ⟨proper, there⟩ := place
      have later : Later w { w.put c none with answers := (call.token, id) :: w.answers } := .same rfl rfl rfl
      refine inv.change later (inv.locks.dropped c) inv.past ?_ (fun _ _ is => .inl is) (fun _ _ _ _ => rfl) ?_ inv.once
      · refine inv.calls_gone later fun c' call' _ is' => ?_
        exact (inv.calls c' call' is').2.2.later later (fun _ => rfl) fun _ mem => mem
      · rintro token id' (mem | mem | mem)
        · exact .inl (.inl mem)
        · exact .inl (.inr (.inl mem))
        · obtain new | old := List.mem_cons.mp mem
          · cases new
            exact .inr ⟨proper, there, usable⟩
          · exact .inl (.inr (.inr old))
  | _ => exact inv

end

theorem Inv.fail (c : Nat) (call : Call) : Inv (w.advance c call (.fail c)) := by
  unfold World.advance
  dsimp only
  split
  · exact inv.gone c
  · exact inv.gone c
  · exact inv.gone c
  · exact inv

theorem Inv.ask {kind : List Char} (usable : w.Usable token) (clean : Clean kind) :
    Inv (w.step (.ask c token kind)) := by
  unfold World.step
  dsimp only
  split
  · have later : Later w { w.put c (some ⟨token, kind, .asked⟩) with
        first := Function.update w.first token (some ((w.first token).getD w.now)) } := by
      refine ⟨?_, fun _ _ h => h, ?_, Nat.le_refl _⟩
      · intro token' h first is
        by_cases same : token' = token
        · exact usable first (same ▸ is)
        · exact h first ((Function.update_of_ne same ..).trans is)
      · intro token' first is
        by_cases same : token' = token
        · subst same
          exact (Function.update_self ..).trans (by rw [is]; rfl)
        · exact (Function.update_of_ne same ..).trans is
    have past (token' : Token) (first : Nat)
        (is : Function.update w.first token (some ((w.first token).getD w.now)) token' = some first) :
        first ≤ w.now := by
      by_cases same : token' = token
      · subst same
        rw [Function.update_self] at is
        cases was : w.first token' with
        | none =>
            rw [was] at is
            cases is
            exact Nat.le_refl _
        | some first' =>
            rw [was] at is
            cases is
            exact inv.past token' first' was
      · rw [Function.update_of_ne same] at is
        exact inv.past token' first is
    refine inv.change later (inv.locks.replaced nofun nofun) past ?_ (fun _ _ is => .inl is) (fun _ _ _ _ => rfl)
      (fun _ _ h => .inl h) inv.once
    intro c' call' is'
    unfold World.put at is'
    dsimp only at is'
    by_cases same : c' = c
    · subst same
      rw [Function.update_self] at is'
      cases is'
      exact ⟨clean, ⟨_, Function.update_self .., past token _ (Function.update_self ..)⟩, trivial⟩
    · rw [Function.update_of_ne same] at is'
      obtain ⟨clean', ⟨first, was, le⟩, place⟩ := inv.calls c' call' is'
      exact ⟨clean', ⟨first, later.first _ _ was, le⟩, place.later later (fun _ => rfl) fun _ mem => mem⟩
  · exact inv

end

theorem Inv.step {w : World} {e : Event} (may : w.May e ∧ w.Kept e) (inv : Inv w) : Inv (w.step e) := by
  obtain ⟨may, kept⟩ := may
  have locks := Locks.step may inv.locks
  have own {c : Nat} {call : Call} (is : w.calls c = some call) (e : Event) : w.own c e = w.advance c call e := by
    rw [World.own, is]
  cases e with
  | ask c token kind => exact inv.ask may.2 kept
  | lock c alive =>
      obtain ⟨call, is, usable, -⟩ := may
      unfold World.step at locks ⊢
      dsimp only at locks ⊢
      rw [own is] at locks ⊢
      unfold World.advance at locks ⊢
      cases phase : call.phase with
      | asked =>
          rw [phase] at locks
          cases table : w.locks call.token with
          | none =>
              rw [table] at locks
              exact inv.walk is locks trivial
          | some m =>
              rw [table] at locks
              cases alive with
              | true | false => exact inv.walk is locks trivial
      | _ => exact inv
  | acquire c =>
      obtain ⟨call, is, usable, -⟩ := may
      unfold World.step at locks ⊢
      dsimp only at locks ⊢
      rw [own is] at locks ⊢
      unfold World.advance at locks ⊢
      dsimp only at locks ⊢
      cases phase : call.phase with
      | queued m =>
          rw [phase] at locks
          exact inv.walk is locks trivial
      | _ => exact inv
  | read c leaf =>
      obtain ⟨call, is, usable, drawn⟩ := may
      unfold World.step at locks ⊢
      dsimp only at locks ⊢
      rw [own is] at locks ⊢
      exact inv.read is locks drawn
  | stat c other =>
      obtain ⟨call, is, -⟩ := may
      unfold World.step at locks ⊢
      dsimp only at locks ⊢
      rw [own is] at locks ⊢
      exact inv.note is (.inl ⟨other, rfl⟩) locks
  | unlink c =>
      obtain ⟨call, is, -⟩ := may
      unfold World.step at locks ⊢
      dsimp only at locks ⊢
      rw [own is] at locks ⊢
      exact inv.note is (.inr (.inl rfl)) locks
  | write c =>
      obtain ⟨call, is, -⟩ := may
      unfold World.step at locks ⊢
      dsimp only at locks ⊢
      rw [own is] at locks ⊢
      exact inv.note is (.inr (.inr rfl)) locks
  | rename c =>
      obtain ⟨call, is, usable, -⟩ := may
      unfold World.step at locks ⊢
      dsimp only at locks ⊢
      rw [own is] at locks ⊢
      exact inv.rename is usable locks
  | look c =>
      obtain ⟨call, is, usable, -⟩ := may
      unfold World.step at locks ⊢
      dsimp only at locks ⊢
      rw [own is] at locks ⊢
      exact inv.look is usable (kept call is) locks
  | ended c ok =>
      obtain ⟨call, is, usable, -⟩ := may
      unfold World.step at locks ⊢
      dsimp only at locks ⊢
      rw [own is] at locks ⊢
      exact inv.ended is usable ok locks
  | answer c =>
      obtain ⟨call, is, usable, -⟩ := may
      unfold World.step
      dsimp only
      rw [own is]
      exact inv.answer is usable
  | fail c =>
      obtain ⟨call, is, -⟩ := may
      unfold World.step
      dsimp only
      rw [own is]
      exact inv.fail c call
  | close id =>
      have later : Later w (w.step (.close id)) := .same rfl rfl rfl
      refine inv.change later locks inv.past ?_ (fun _ _ is => .inl is) (fun _ _ _ _ => rfl) (fun _ _ h => .inl h)
        inv.once
      intro c call is
      obtain ⟨clean, first, place⟩ := inv.calls c call is
      exact ⟨clean, first, place.later later (fun _ => rfl) fun _ mem => mem⟩
  | tick now =>
      have le : w.now ≤ now := may
      have later : Later w (w.step (.tick now)) := by
        refine ⟨?_, fun _ _ h => h, fun _ _ h => h, le⟩
        intro token usable first is
        exact Nat.le_trans le (usable first is)
      refine inv.change later locks ?_ ?_ (fun _ _ is => .inl is) (fun _ _ _ _ => rfl) (fun _ _ h => .inl h) inv.once
      · intro token first is
        exact Nat.le_trans (inv.past token first is) le
      · intro c call is
        obtain ⟨clean, ⟨first, was, before⟩, place⟩ := inv.calls c call is
        exact ⟨clean, ⟨first, was, Nat.le_trans before le⟩, place.later later (fun _ => rfl) fun _ mem => mem⟩
  | kill =>
      have later : Later w (w.step .kill) := .same rfl rfl rfl
      exact inv.change later locks inv.past nofun (fun _ _ is => .inl is) (fun _ _ _ _ => rfl) (fun _ _ h => .inl h)
        inv.once

/-- The lock of a token has one holder. And where no kind begins with white space, and a request finds the session
its token made while it looks for it, all that the requests of a token open, make and answer has one id, which no other
token's has, and they make one session. -/
theorem made_once (w : World) :
    (Runs World.step World.May World.start w → ∀ c c' call call', w.calls c = some call →
      w.calls c' = some call' → call.token = call'.token → call.phase.holds ≠ none → call'.phase.holds ≠ none →
        c = c') ∧
    (Runs World.step (fun w e => w.May e ∧ w.Kept e) World.start w →
      (∀ token id id', Named w token id → Named w token id' → id = id') ∧
      (∀ token token' id, Named w token id → Named w token' id → token = token') ∧
      (w.sessions.map Prod.fst).Nodup) := by
  constructor
  · intro run c c' call call' is is' token holds holds'
    have locks : Locks w.calls w.locks := by
      refine run.invariant (I := fun w => Locks w.calls w.locks) Locks.step ?_
      exact ⟨nofun, nofun⟩
    exact locks.holder is is' token holds holds'
  · intro run
    have inv : Inv w := run.invariant Inv.step Inv.start
    refine ⟨inv.same, ?_, inv.once⟩
    intro token token' id h h'
    obtain ⟨kind, leaf, is, -, long, -, mine⟩ := (inv.named token id h).1
    obtain ⟨kind', leaf', is', -, long', -, mine'⟩ := (inv.named token' id h').1
    have same := leaf_inj long long' (is.symm.trans is')
    rw [same, mine'] at mine
    cases mine
    rfl

/-! ### A second session, and a second id -/

/-- The request an event belongs to. -/
def Event.request : Event → Option Nat
  | .ask c _ _ | .lock c _ | .acquire c | .read c _ | .stat c _ | .unlink c | .write c | .rename c | .look c
  | .ended c _ | .answer c | .fail c => some c
  | .close _ | .tick _ | .kill => none

theorem advance_other (w : World) {other : Nat} (apart : other ≠ c) (call : Call) (e : Event) :
    (w.advance c call e).calls other = w.calls other := by
  have put (new : Option Call) : Function.update w.calls c new other = w.calls other := Function.update_of_ne apart ..
  cases e with
  | lock | acquire | write | rename | unlink | answer | fail =>
      unfold World.advance
      dsimp only
      split <;> first | exact put _ | rfl
  | read | look | ended | stat =>
      unfold World.advance
      dsimp only
      split
      · split <;> first | exact put _ | rfl
      · rfl
  | ask | close | tick | kill => rfl

/-- Events of others start no request. -/
theorem step_none (none : w.calls c = none) (other : e.request ≠ some c) : (w.step e).calls c = Option.none := by
  have own {c' : Nat} (e : Event) (apart : c ≠ c') : (w.own c' e).calls c = Option.none := by
    unfold World.own
    split
    · rw [advance_other w apart]
      exact none
    · exact none
  cases e with
  | ask c' token kind =>
      have apart : c ≠ c' := fun same => other (congrArg some same.symm)
      unfold World.step
      dsimp only
      split
      · exact (Function.update_of_ne apart ..).trans none
      · exact none
  | close | tick => exact none
  | kill => rfl
  | lock c' | acquire c' | read c' | stat c' | unlink c' | write c' | rename c' | look c' | ended c' | answer c'
  | fail c' => exact own _ fun same => other (congrArg some same.symm)

theorem steps_none {es : List Event} (none : w.calls c = none) (others : ∀ e ∈ es, e.request ≠ some c) :
    (es.foldl World.step w).calls c = Option.none := by
  induction es generalizing w with
  | nil => exact none
  | cons e es ih =>
      exact ih (step_none none (others e (.head _))) fun e' mem => others e' (.tail e mem)

def press : Token := List.replicate 16 0x61

def zeros : List Char := List.replicate LEAF_HEX '0'

def ones : List Char := List.replicate LEAF_HEX '1'

theorem replicate_hex {d : Char} (digit : d ∈ HEX) : ∀ c ∈ List.replicate LEAF_HEX d, c ∈ HEX := by
  intro c there
  rw [List.eq_of_mem_replicate there]
  exact digit

theorem zeros_hex : ∀ c ∈ zeros, c ∈ HEX := replicate_hex (by decide)

theorem ones_hex : ∀ c ∈ ones, c ∈ HEX := replicate_hex (by decide)

/-- A first request, as far as its `open_here` ends. -/
def asked (kind : List Char) (ok : Bool) : List Event :=
  [.ask 1 press kind, .lock 1 false, .acquire 1, .read 1 zeros, .write 1, .rename 1, .look 1, .ended 1 ok]

/-- A second request for the same token, as far as its `open_here` ends. -/
def retried (kind : List Char) : List Event :=
  [.ask 2 press kind, .lock 2 false, .acquire 2, .read 2 ones, .look 2, .ended 2 true]

/-- A request that is alone may take its lock and its mutex. -/
theorem lock_alone {w : World} {c : Nat} {token : Token} {kind : List Char} (is : w.calls c = some ⟨token, kind, .asked⟩)
    (alone : ∀ other, other ≠ c → w.calls other = none) (usable : w.Usable token) : w.May (.lock c false) := by
  refine ⟨_, is, usable, nofun, ?_⟩
  rintro ⟨m, other, call', -, is', mutex⟩
  by_cases same : other = c
  · subst same
    rw [is] at is'
    cases is'
    cases mutex
  · rw [alone other same] at is'
    cases is'

theorem acquire_alone {w : World} {c m : Nat} {token : Token} {kind : List Char}
    (is : w.calls c = some ⟨token, kind, .queued m⟩) (alone : ∀ other, other ≠ c → w.calls other = none)
    (usable : w.Usable token) : w.May (.acquire c) := by
  refine ⟨_, is, usable, ?_⟩
  rintro m' - other call' is'
  by_cases same : other = c
  · subst same
    rw [is] at is'
    cases is'
    exact nofun
  · rw [alone other same] at is'
    cases is'

theorem usable_zero (now : w.now = 0) (token : Token) : w.Usable token := by
  intro first _
  rw [now]
  exact Nat.zero_le _

theorem asked_fits (kind : List Char) (ok : Bool) : Fits World.step World.May World.start (asked kind ok) := by
  have alone {es : List Event} (mine : ∀ e ∈ es, e.request = some 1) (other : Nat) (apart : other ≠ 1) :
      (es.foldl World.step World.start).calls other = none :=
    steps_none rfl fun e mem same => apart (Option.some.inj (same.symm.trans (mine e mem)))
  refine ⟨⟨rfl, usable_zero rfl _⟩, ?_, ?_, ⟨_, rfl, usable_zero rfl _, by decide, zeros_hex, rfl⟩,
    ⟨_, rfl, usable_zero rfl _, trivial⟩, ⟨_, rfl, usable_zero rfl _, trivial⟩, ⟨_, rfl, usable_zero rfl _, trivial⟩,
    ⟨_, rfl, usable_zero rfl _, trivial⟩, trivial⟩
  · refine lock_alone rfl ?_ (usable_zero rfl _)
    exact @alone [.ask 1 press kind] (by simp [Event.request])
  · refine acquire_alone rfl ?_ (usable_zero rfl _)
    exact @alone [.ask 1 press kind, .lock 1 false] (by simp [Event.request])

/-- Before the second request: the session was made, answered for and closed; or its kind began with white space, and
`open_here` refused the id. -/
def scene (closed : Bool) : List Event :=
  if closed then asked ['s'] true ++ [.answer 1, .close ('s' :: '/' :: zeros)] else asked [' ', 's'] false

def kindOf (closed : Bool) : List Char := if closed then ['s'] else [' ', 's']

theorem scene_runs (closed : Bool) :
    Runs World.step World.May World.start ((scene closed).foldl World.step World.start) := by
  cases closed with
  | false => exact (asked_fits [' ', 's'] false).runs
  | true =>
      rw [scene, if_pos rfl, List.foldl_append]
      refine (asked_fits ['s'] true).runs.trans (Fits.runs ⟨⟨_, rfl, usable_zero rfl _, trivial⟩, trivial, trivial⟩)

theorem retried_fits (closed : Bool) :
    Fits World.step World.May ((scene closed).foldl World.step World.start) (retried (kindOf closed)) := by
  have before (c : Nat) : ((scene closed).foldl World.step World.start).calls c = none := by
    by_cases first : c = 1
    · subst first
      cases closed <;> rfl
    · refine steps_none rfl fun e mem same => ?_
      have mine : ∀ e ∈ scene closed, e.request = some 1 ∨ e.request = none := by
        cases closed <;> simp [scene, asked, Event.request]
      obtain is | is := mine e mem
      · rw [is] at same
        exact first (Option.some.inj same).symm
      · rw [is] at same
        cases same
  have alone {es : List Event} (mine : ∀ e ∈ es, e.request = some 2) (other : Nat) (apart : other ≠ 2) :
      (es.foldl World.step ((scene closed).foldl World.step World.start)).calls other = none :=
    steps_none (before other) fun e mem same => apart (Option.some.inj (same.symm.trans (mine e mem)))
  refine ⟨⟨before 2, usable_zero (by cases closed <;> rfl) _⟩, ?_, ?_,
    ⟨⟨press, kindOf closed, .reading 1⟩, by cases closed <;> rfl, usable_zero (by cases closed <;> rfl) _, by decide,
      ones_hex, by cases closed <;> rfl⟩,
    ⟨⟨press, kindOf closed, .looking 1 ('s' :: '/' :: zeros)⟩, by cases closed <;> rfl,
      usable_zero (by cases closed <;> rfl) _, trivial⟩,
    ⟨⟨press, kindOf closed, .opening 1 ('s' :: '/' :: zeros)⟩, by cases closed <;> rfl,
      usable_zero (by cases closed <;> rfl) _, trivial⟩, trivial⟩
  · refine @lock_alone _ 2 press (kindOf closed) (by cases closed <;> rfl) ?_ (usable_zero (by cases closed <;> rfl) _)
    exact @alone [.ask 2 press (kindOf closed)] (by simp [Event.request])
  · refine @acquire_alone _ 2 1 press (kindOf closed) (by cases closed <;> rfl) ?_
      (usable_zero (by cases closed <;> rfl) _)
    exact @alone [.ask 2 press (kindOf closed), .lock 2 false] (by simp [Event.request])

/-- A retry after its session was closed makes a second one; and a retry reads the id of a kind that begins with white
space back as another. -/
theorem made_twice :
    (∃ w, Runs World.step World.May World.start w ∧ w.sessions.map Prod.fst = [press, press]) ∧
      ∃ w, Runs World.step World.May World.start w ∧ Named w press (' ' :: 's' :: '/' :: zeros) ∧
        Named w press ('s' :: '/' :: zeros) := by
  refine ⟨⟨_, (scene_runs true).trans (retried_fits true).runs, rfl⟩,
    ⟨_, (scene_runs false).trans (retried_fits false).runs, .inl ?_, .inl ?_⟩⟩
  · exact .tail _ (.head _)
  · exact .head _

end Khor.Once
