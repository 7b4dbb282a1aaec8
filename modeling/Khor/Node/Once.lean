/-
Module: Khor.Node.Once
Purpose: A session made at most once for each token: the token's record on disk, the lock that is one mutex for each token
  while anybody holds or awaits it, and the request that reads the record, chooses and writes down an id, looks for the
  session and opens it, step after step. The process may be killed between any two steps.
Trusted boundary: `open_here` either leaves no `meta.json` or has written it; leaves are drawn once; reads of the record do
  not fail; the clock does not go back
Main exports: valid, made, Phase, Call, World
-/
import Mathlib

namespace Khor.Once

abbrev Token := List UInt8

/-- A session's id, `<kind>/<leaf>`. -/
abbrev Id := List Char

/-- How long a token's record is kept. -/
def KEPT_MS : Nat := 24 * 60 * 60 * 1000

def isAlphanumeric (b : UInt8) : Bool :=
  (0x30 ≤ b && b ≤ 0x39) || (0x41 ≤ b && b ≤ 0x5A) || (0x61 ≤ b && b ≤ 0x7A)

/-- Letters, digits, dashes and underscores, and a safe file name. -/
def valid (token : Token) : Bool :=
  decide (16 ≤ token.length ∧ token.length ≤ 64) &&
    token.all fun b => isAlphanumeric b || b == 0x2D || b == 0x5F

/-- `char::is_whitespace`. -/
def isWhite (c : Char) : Bool :=
  (0x09 ≤ c.val && c.val ≤ 0x0D) || c.val == 0x20 || c.val == 0x85 || c.val == 0xA0 || c.val == 0x1680 ||
    (0x2000 ≤ c.val && c.val ≤ 0x200A) || c.val == 0x2028 || c.val == 0x2029 || c.val == 0x202F || c.val == 0x205F ||
    c.val == 0x3000

def trim (text : List Char) : List Char := ((text.dropWhile isWhite).reverse.dropWhile isWhite).reverse

/-- A token's file: the id, and when it was written. -/
structure Record where
  id : Id
  written : Nat

/-- The session this token made, if it made one. -/
def made (records : Token → Option Record) (token : Token) : Option Id :=
  match records token with
  | none => none
  | some r => if (trim r.id).isEmpty then none else some (trim r.id)

/-- Sixteen hex digits, as `fresh_leaf` draws them. -/
def LEAF_HEX : Nat := 16

def HEX : List Char := ['0', '1', '2', '3', '4', '5', '6', '7', '8', '9', 'a', 'b', 'c', 'd', 'e', 'f']

/-- Where a request is: before the lock, awaiting a mutex, holding its guard. The guarded phases are before the record is
read, in `note` (with a file that was found stale, then with the temporary file written), before the look for the
session, in `open_here`, and before the answer. -/
inductive Phase where
  | asked
  | queued (mutex : Nat)
  | reading (mutex : Nat)
  | noting (mutex : Nat) (id : Id) (stale : Option Token)
  | written (mutex : Nat) (id : Id) (moment : Nat)
  | looking (mutex : Nat) (id : Id)
  | opening (mutex : Nat) (id : Id)
  | opened (mutex : Nat) (id : Id)

/-- The mutex a request keeps alive. -/
def Phase.mutex : Phase → Option Nat
  | .asked => none
  | .queued m | .reading m | .noting m _ _ | .written m _ _ | .looking m _ | .opening m _ | .opened m _ => some m

/-- The mutex a request holds. -/
def Phase.holds : Phase → Option Nat
  | .asked | .queued _ => none
  | .reading m | .noting m _ _ | .written m _ _ | .looking m _ | .opening m _ | .opened m _ => some m

structure Call where
  token : Token
  kind : List Char
  phase : Phase

/-- The files, and the resident: the requests it is at, and the table of locks with weak references. The rest are ghosts:
when each token was first used, for whom each leaf was drawn, and under which ids each token's requests called
`open_here`, made a session and answered. -/
structure World where
  records : Token → Option Record
  metaJson : Id → Bool
  calls : Nat → Option Call
  locks : Token → Option Nat
  mutexes : Nat
  now : Nat
  first : Token → Option Nat
  owner : List Char → Option Token
  opens : List (Token × Id)
  sessions : List (Token × Id)
  answers : List (Token × Id)

inductive Event where
  | ask (c : Nat) (token : Token) (kind : List Char)
  | lock (c : Nat) (alive : Bool)
  | acquire (c : Nat)
  | read (c : Nat) (leaf : List Char)
  | stat (c : Nat) (other : Token)
  | unlink (c : Nat)
  | write (c : Nat)
  | rename (c : Nat)
  | look (c : Nat)
  | ended (c : Nat) (ok : Bool)
  | answer (c : Nat)
  | fail (c : Nat)
  | close (id : Id)
  | tick (now : Nat)
  | kill

namespace World

def start : World where
  records _ := none
  metaJson _ := false
  calls _ := none
  locks _ := none
  mutexes := 0
  now := 0
  first _ := none
  owner _ := none
  opens := []
  sessions := []
  answers := []

def put (w : World) (c : Nat) (call : Option Call) : World := { w with calls := Function.update w.calls c call }

/-- The request goes on. -/
def goes (w : World) (c : Nat) (call : Call) (phase : Phase) : World := w.put c (some { call with phase })

/-- What a request does at an event of its own, by where it is. -/
def advance (w : World) (c : Nat) (call : Call) : Event → World
  | .lock _ alive =>
      match call.phase, w.locks call.token, alive with
      | .asked, some m, true => w.goes c call (.queued m)
      | .asked, _, _ =>
          { w.goes c call (.queued w.mutexes) with
            locks := Function.update w.locks call.token (some w.mutexes)
            mutexes := w.mutexes + 1 }
      | _, _, _ => w
  | .acquire _ =>
      match call.phase with
      | .queued m => w.goes c call (.reading m)
      | _ => w
  | .read _ leaf =>
      match call.phase with
      | .reading m =>
          match made w.records call.token with
          | some id => w.goes c call (.looking m id)
          | none =>
              { w.goes c call (.noting m (call.kind ++ '/' :: leaf) none) with
                owner := Function.update w.owner leaf (some call.token) }
      | _ => w
  | .stat _ other =>
      match call.phase, w.records other with
      | .noting m id _, some r => if KEPT_MS < w.now - r.written then w.goes c call (.noting m id (some other)) else w
      | _, _ => w
  | .unlink _ =>
      match call.phase with
      | .noting m id (some other) =>
          { w.goes c call (.noting m id none) with records := Function.update w.records other none }
      | _ => w
  | .write _ =>
      match call.phase with
      | .noting m id none => w.goes c call (.written m id w.now)
      | _ => w
  | .rename _ =>
      match call.phase with
      | .written m id moment =>
          { w.goes c call (.looking m id) with records := Function.update w.records call.token (some ⟨id, moment⟩) }
      | _ => w
  | .look _ =>
      match call.phase with
      | .looking m id =>
          if w.metaJson id then w.goes c call (.opened m id)
          else { w.goes c call (.opening m id) with opens := (call.token, id) :: w.opens }
      | _ => w
  | .ended _ ok =>
      match call.phase with
      | .opening m id =>
          if ok then
            { w.goes c call (.opened m id) with
              metaJson := Function.update w.metaJson id true
              sessions := (call.token, id) :: w.sessions }
          else w.put c none
      | _ => w
  | .answer _ =>
      match call.phase with
      | .opened _ id => { w.put c none with answers := (call.token, id) :: w.answers }
      | _ => w
  | .fail _ =>
      match call.phase with
      | .reading _ | .noting .. | .written .. => w.put c none
      | _ => w
  | _ => w

/-- An event of a request. -/
def own (w : World) (c : Nat) (e : Event) : World :=
  match w.calls c with
  | some call => w.advance c call e
  | none => w

def step (w : World) (e : Event) : World :=
  match e with
  | .ask c token kind =>
      if valid token then
        { w.put c (some ⟨token, kind, .asked⟩) with
          first := Function.update w.first token (some ((w.first token).getD w.now)) }
      else w
  | .lock c _ | .acquire c | .read c _ | .stat c _ | .unlink c | .write c | .rename c | .look c | .ended c _
  | .answer c | .fail c => w.own c e
  | .close id => { w with metaJson := Function.update w.metaJson id false }
  | .tick now => { w with now }
  | .kill => { w with calls := fun _ => none, locks := fun _ => none }

/-- A token may still be used. -/
def Usable (w : World) (token : Token) : Prop := ∀ first, w.first token = some first → w.now ≤ first + KEPT_MS

/-- The request of an event is there, and its token may still be used. -/
def Here (w : World) (c : Nat) (p : Call → Prop) : Prop := ∃ call, w.calls c = some call ∧ w.Usable call.token ∧ p call

/-- Time goes on; every use of a token is within `KEPT_MS` of its first. A weak reference can be followed as long as some
request keeps its mutex, a mutex is taken when nobody holds it, and a leaf is drawn once. -/
def May (w : World) : Event → Prop
  | .ask c token _ => w.calls c = none ∧ w.Usable token
  | .lock c alive => w.Here c fun call =>
      alive = true ↔ ∃ m other call', w.locks call.token = some m ∧ w.calls other = some call' ∧
        call'.phase.mutex = some m
  | .acquire c => w.Here c fun call =>
      ∀ m, call.phase.mutex = some m → ∀ other call', w.calls other = some call' → call'.phase.holds ≠ some m
  | .read c leaf => w.Here c fun _ => leaf.length = LEAF_HEX ∧ (∀ c ∈ leaf, c ∈ HEX) ∧ w.owner leaf = none
  | .stat c _ | .unlink c | .write c | .rename c | .look c | .ended c _ | .answer c | .fail c => w.Here c fun _ => True
  | .close _ => True
  | .tick now => w.now ≤ now
  | .kill => True

/-- A kind begins with no white space; and where a request looks for the session its token made, it is still there. -/
def Kept (w : World) : Event → Prop
  | .ask _ _ kind => ∀ first, kind.head? = some first → isWhite first = false
  | .look c => ∀ call, w.calls c = some call → ∀ id, (call.token, id) ∈ w.sessions → w.metaJson id = true
  | _ => True

end World

/-! ### Ids -/

theorem hex_not_white : ∀ c ∈ HEX, isWhite c = false := by
  have all : HEX.all (fun c => !isWhite c) = true := by decide
  intro c there
  simpa using List.all_eq_true.mp all c there

theorem dropWhile_id {p : Char → Bool} {text : List Char} (first : ∀ c, text.head? = some c → p c = false) :
    text.dropWhile p = text := by
  cases text with
  | nil => rfl
  | cons c rest => exact List.dropWhile_cons_of_neg (Bool.eq_false_iff.mp (first c rfl))

/-- An id whose kind begins with no white space reads back as it was written. -/
theorem trim_id {kind leaf : List Char} (clean : ∀ first, kind.head? = some first → isWhite first = false)
    (long : leaf.length = LEAF_HEX) (hex : ∀ c ∈ leaf, c ∈ HEX) :
    trim (kind ++ '/' :: leaf) = kind ++ '/' :: leaf := by
  have front : (kind ++ '/' :: leaf).dropWhile isWhite = kind ++ '/' :: leaf := by
    refine dropWhile_id fun c is => ?_
    cases kind with
    | nil =>
        cases is
        decide
    | cons first rest => exact clean c is
  have back : (kind ++ '/' :: leaf).reverse.dropWhile isWhite = (kind ++ '/' :: leaf).reverse := by
    refine dropWhile_id fun c is => ?_
    rw [List.head?_reverse] at is
    have last : leaf.getLast? = some c := by
      cases leaf with
      | nil => cases long
      | cons first rest =>
          rw [List.getLast?_append, List.getLast?_cons_cons] at is
          cases found : (first :: rest).getLast? with
          | none => cases List.getLast?_eq_none_iff.mp found
          | some c' =>
              rw [found] at is
              exact is
    exact hex_not_white c (hex c (List.mem_of_getLast? last))
  rw [trim, front, back, List.reverse_reverse]

/-- Ids of leaves of one length are one only if the leaves are. -/
theorem leaf_inj {kind kind' leaf leaf' : List Char} (long : leaf.length = LEAF_HEX) (long' : leaf'.length = LEAF_HEX)
    (same : kind ++ '/' :: leaf = kind' ++ '/' :: leaf') : leaf = leaf' := by
  have tails := (List.append_inj' same (by rw [List.length_cons, List.length_cons, long, long'])).2
  exact (List.cons.inj tails).2

end Khor.Once
